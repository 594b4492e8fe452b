import HeaderBinding.Json.Decode
import HeaderBinding.Json.ReadBack
import Mathlib.Data.List.Forall2

namespace HeaderBinding

namespace Json

section

variable {j : Json} {js ks : List Json} {es fs : List (String × Json)}

theorem allReadAs_iff : AllReadAs js ks ↔ List.Forall₂ ReadsAs js ks := by
  induction js generalizing ks with
  | nil => cases ks <;> simp [AllReadAs]
  | cons j rest ih => cases ks <;> simp [AllReadAs, ih]

@[simp] theorem readsAs_array : (array js).ReadsAs j ↔ ∃ ks, j = .array ks ∧ List.Forall₂ ReadsAs js ks := by
  cases j <;> simp [ReadsAs, allReadAs_iff]

@[simp] theorem readsAs_object : (object es).ReadsAs j ↔ ∃ fs, j = .object fs ∧ EntriesReadAs es fs := by
  cases j <;> simp [ReadsAs]

@[simp] theorem entriesReadAs_nil : EntriesReadAs [] fs ↔ fs = [] := by
  cases fs <;> simp [EntriesReadAs]

@[simp] theorem entriesReadAs_cons {key : String} :
    EntriesReadAs ((key, j) :: es) fs ↔ ∃ k gs, fs = (key, k) :: gs ∧ j.ReadsAs k ∧ EntriesReadAs es gs := by
  rcases fs with _ | ⟨⟨key', k⟩, gs⟩
  · simp [EntriesReadAs]
  · simp only [EntriesReadAs, List.cons.injEq, Prod.mk.injEq]
    constructor
    · rintro ⟨rfl, hj, hes⟩
      exact ⟨k, gs, ⟨⟨rfl, rfl⟩, rfl⟩, hj, hes⟩
    · rintro ⟨_, _, ⟨⟨rfl, rfl⟩, rfl⟩, hj, hes⟩
      exact ⟨rfl, hj, hes⟩

theorem isFiniteItems_eq_all (js : List Json) : isFiniteItems js = js.all isFinite := by
  induction js with
  | nil => rfl
  | cons j rest ih => rw [isFiniteItems, ih, List.all_cons]

theorem anyFaultEntries_insertEntry {p : Fault → Bool} {key : String} (hj : j.anyFault p = false)
    (hes : anyFaultEntries p es = false) : anyFaultEntries p (insertEntry key j es) = false := by
  induction es with
  | nil => simp [insertEntry, anyFaultEntries, hj]
  | cons e rest ih =>
    obtain ⟨k, v⟩ := e
    simp only [anyFaultEntries, Bool.or_eq_false_iff] at hes
    simp only [insertEntry]
    split
    · simp [anyFaultEntries, hj, hes]
    · split
      · simp [anyFaultEntries, hj, hes]
      · simp [anyFaultEntries, hes.1, ih hes.2]

end

mutual
theorem anyFault_of_readsAs {p : Fault → Bool} : ∀ {j k : Json}, j.ReadsAs k → k.anyFault p = false
  | _, .null, _ => rfl
  | _, .bool _, _ => rfl
  | _, .integer _, _ => rfl
  | _, .single _, _ => rfl
  | _, .double _, _ => rfl
  | _, .string _, _ => rfl
  | j, .array ks, h => by
    cases j with
    | array _ => exact anyFaultItems_of_allReadAs h
    | _ => exact h.elim
  | j, .object fs, h => by
    cases j with
    | object _ => exact anyFaultEntries_of_entriesReadAs h
    | _ => exact h.elim
  | j, .fault _, h => by
    cases j <;> exact h.elim
termination_by structural _ k => k

theorem anyFaultItems_of_allReadAs {p : Fault → Bool} : ∀ {js ks : List Json}, AllReadAs js ks →
    anyFaultItems p ks = false
  | _, [], _ => rfl
  | _ :: _, _ :: _, h => by
    rw [anyFaultItems, anyFault_of_readsAs h.1, anyFaultItems_of_allReadAs h.2]
    rfl
termination_by structural _ ks => ks

theorem anyFaultEntries_of_entriesReadAs {p : Fault → Bool} : ∀ {es fs : List (String × Json)},
    EntriesReadAs es fs → anyFaultEntries p fs = false
  | _, [], _ => rfl
  | (_, _) :: _, (_, _) :: _, h => by
    rw [anyFaultEntries, anyFault_of_readsAs h.2.1, anyFaultEntries_of_entriesReadAs h.2.2]
    rfl
termination_by structural _ fs => fs
end

mutual
theorem anyFault_sorted {p : Fault → Bool} : ∀ {j : Json}, j.anyFault p = false → j.sorted.anyFault p = false
  | .array _, h => anyFaultItems_sorted h
  | .object _, h => anyFaultEntries_sorted rfl h
  | .null, _ | .bool _, _ | .integer _, _ | .single _, _ | .double _, _ | .string _, _ => rfl
  | .fault _, h => h
termination_by structural j => j

theorem anyFaultItems_sorted {p : Fault → Bool} : ∀ {js : List Json}, anyFaultItems p js = false →
    anyFaultItems p (sortedItems js) = false
  | [], _ => rfl
  | _ :: _, h => by
    rw [anyFaultItems, Bool.or_eq_false_iff] at h
    rw [sortedItems, anyFaultItems, anyFault_sorted h.1, anyFaultItems_sorted h.2]
    rfl
termination_by structural js => js

theorem anyFaultEntries_sorted {p : Fault → Bool} : ∀ {es before : List (String × Json)},
    anyFaultEntries p before = false → anyFaultEntries p es = false →
    anyFaultEntries p (sortedEntries before es) = false
  | [], _, hbefore, _ => hbefore
  | (_, _) :: _, _, hbefore, h => by
    rw [anyFaultEntries, Bool.or_eq_false_iff] at h
    rw [sortedEntries]
    exact anyFaultEntries_sorted (anyFaultEntries_insertEntry (anyFault_sorted h.1) hbefore) h.2
termination_by structural es => es
end

theorem sortedItems_eq_map (js : List Json) : sortedItems js = js.map sorted := by
  induction js with
  | nil => rfl
  | cons j rest ih => rw [sortedItems, ih, List.map_cons]

theorem depth_le_depthItems {j : Json} {js : List Json} (h : j ∈ js) : j.depth ≤ depthItems js := by
  induction js with
  | nil => cases h
  | cons i rest ih =>
    rw [depthItems]
    rcases List.mem_cons.mp h with rfl | h
    · exact Nat.le_max_left ..
    · exact Nat.le_trans (ih h) (Nat.le_max_right ..)

theorem splitTag_untagged {form : Form} {tag : String} {words : List String} {found : Option String}
    {es : List (String × Json)} (hkeys : ∀ e ∈ es, e.1 ≠ tag) (hsound : anyFaultEntries (fun _ => true) es = false)
    (kept rest : List (String × Json)) :
    splitTag form tag words found kept (es ++ rest) = splitTag form tag words found (es.reverse ++ kept) rest := by
  induction es generalizing kept with
  | nil => rfl
  | cons e es ih =>
    obtain ⟨key, j⟩ := e
    simp only [anyFaultEntries, Bool.or_eq_false_iff] at hsound
    obtain ⟨hkey, hes⟩ := List.forall_mem_cons.mp hkeys
    have hkeep : j.keep = .ok j := by simp [keep, isSound, hsound.1]
    rw [List.cons_append, splitTag.eq_def]
    dsimp only
    rw [if_neg hkey, hkeep]
    exact (ih hes hsound.2 _).trans (by simp)

theorem anyFaultEntries_append (p : Fault → Bool) (es fs : List (String × Json)) :
    anyFaultEntries p (es ++ fs) = (anyFaultEntries p es || anyFaultEntries p fs) := by
  induction es with
  | nil => rfl
  | cons e rest ih => rw [List.cons_append, anyFaultEntries, anyFaultEntries, ih, Bool.or_assoc]

theorem toTagged_sorted (form : Form) {tag word : String} {words : List String} {j k : Json} (h : j.ReadsAs k)
    (hword : words.contains word = true) (before after : List (String × Json))
    (hk : k.sorted = .object (before ++ (tag, .string word) :: after))
    (hkeys : ∀ e ∈ before ++ after, e.1 ≠ tag) :
    k.sorted.toTagged form tag words = .ok (word, .object (before ++ after)) := by
  have hsound : k.sorted.anyFault (fun _ => true) = false := anyFault_sorted (anyFault_of_readsAs h)
  rw [hk, anyFault, anyFaultEntries_append, Bool.or_eq_false_iff, anyFaultEntries, Bool.or_eq_false_iff] at hsound
  obtain ⟨hbefore, -, hafter⟩ := hsound
  obtain ⟨hkeys, hkeys'⟩ := List.forall_mem_append.mp hkeys
  have htag : (string word).toTag form words = .ok word := by simp only [toTag, hword, if_true]
  have hrest : splitTag form tag words (some word) before.reverse after =
      splitTag form tag words (some word) (after.reverse ++ before.reverse) [] := by
    simpa using splitTag_untagged hkeys' hafter before.reverse []
  have hsplit : splitTag form tag words none [] (before ++ (tag, .string word) :: after) =
      .ok (some word, before ++ after) := by
    rw [splitTag_untagged hkeys hbefore, List.append_nil, splitTag, if_pos rfl, htag]
    refine hrest.trans ?_
    rw [splitTag]
    simp
  rw [hk, toTagged, hsplit]
  rfl

end Json

structure Decodes {α : Type} (reading : Decoded α) (condition : Prop) (a : α) : Prop where
  ok : condition → reading = .ok a
  error : ¬condition → ∃ e, reading = .error e

namespace Decodes

variable {α β : Type} {r : Decoded α} {c c' : Prop} {a : α} {b : β}

theorem of_eq (h : r = .ok a) : Decodes r True a :=
  ⟨fun _ => h, fun hc => (hc trivial).elim⟩

theorem pure (a : α) : Decodes (.ok a) True a :=
  of_eq rfl

theorem congr (h : Decodes r c a) (hc : c' ↔ c) : Decodes r c' a :=
  ⟨fun hc' => h.ok (hc.mp hc'), fun hc' => h.error (mt hc.mpr hc')⟩

theorem bind {f : α → Decoded β} (h : Decodes r c a) (hf : Decodes (f a) c' b) :
    Decodes (r >>= f) (c ∧ c') b := by
  by_cases hc : c
  · rw [h.ok hc]
    exact ⟨fun hcc => hf.ok hcc.2, fun hcc => hf.error fun hc' => hcc ⟨hc, hc'⟩⟩
  · obtain ⟨e, he⟩ := h.error hc
    rw [he]
    exact ⟨fun hcc => (hc hcc.1).elim, fun _ => ⟨e, rfl⟩⟩

theorem map (h : Decodes r c a) (f : α → β) : Decodes (r.map f) c (f a) := by
  constructor
  · intro hc
    rw [h.ok hc]
    rfl
  · intro hc
    obtain ⟨e, he⟩ := h.error hc
    exact ⟨e, by rw [he]; rfl⟩

theorem mapM {ρ : Type} {read : ρ → Decoded β} {condition : α → Prop} {f : α → β} {as : List α} {rs : List ρ}
    (h : List.Forall₂ (fun a r => Decodes (read r) (condition a) (f a)) as rs) :
    Decodes (rs.mapM read) (∀ a ∈ as, condition a) (as.map f) := by
  induction h with
  | nil => exact (pure []).congr (by simp)
  | @cons a r as rs ha _ ih =>
    rw [List.mapM_cons]
    have hrest := ih.bind (f := fun bs => .ok (f a :: bs)) (pure _)
    exact (ha.bind hrest).congr (by simp)

theorem toOption {read : Json → Decoded α} {j : Json} (h : Decodes (read j) c a) (hj : j ≠ .null) :
    Decodes (j.toOption read) c (some a) := by
  cases j with
  | null => exact (hj rfl).elim
  | _ => exact h.map some

theorem list {read : Json → Decoded β} {toJson : α → Json} {condition : α → Prop} {f : α → β}
    {as : List α} {ks : List Json} (h : List.Forall₂ Json.ReadsAs (as.map toJson) ks)
    (hread : ∀ a ∈ as, ∀ k ∈ ks, (toJson a).ReadsAs k → Decodes (read k.sorted) (condition a) (f a)) :
    Decodes (Json.toList read (.array (Json.sortedItems ks))) (∀ a ∈ as, condition a) (as.map f) := by
  rw [Json.sortedItems_eq_map]
  refine mapM ?_
  rw [List.forall₂_map_left_iff] at h
  rw [List.forall₂_map_right_iff]
  induction h with
  | nil => exact .nil
  | @cons a k as ks ha _ ih =>
    have hfirst := hread a (List.mem_cons_self ..) k (List.mem_cons_self ..) ha
    exact .cons hfirst (ih fun b hb l hl => hread b (List.mem_cons_of_mem a hb) l (List.mem_cons_of_mem k hl))

open Json (readEntries toRecord)

variable {fields : List (Json.Field α)} {seen : List String}

theorem done : Decodes (readEntries fields seen a []) True (seen, a) :=
  pure _

theorem field {key name : String} {required : Bool} {read : Json → Decoded β} {put : β → α → α} {j : Json}
    {rest : List (String × Json)} {result : List String × α}
    (hfind : fields.find? (·.name == key) = some ⟨name, required, fun j a => (read j).map (put · a)⟩)
    (hseen : seen.contains key = false) (hread : Decodes (read j) c b)
    (hrest : Decodes (readEntries fields (key :: seen) (put b a) rest) c' result) :
    Decodes (readEntries fields seen a ((key, j) :: rest)) (c ∧ c') result := by
  have hstep : readEntries fields seen a ((key, j) :: rest) =
      (read j).map (put · a) >>= fun a => readEntries fields (key :: seen) a rest := by
    rw [readEntries, hfind]
    simp only [hseen]
    rfl
  rw [hstep]
  exact (hread.map (put · a)).bind hrest

theorem record {form : Json.Form} {entries : List (String × Json)} {blank : α}
    (h : Decodes (readEntries fields [] blank entries) c (seen, a))
    (hall : fields.find? (fun field => field.required && !seen.contains field.name) = none) :
    Decodes (toRecord form fields blank (.object entries)) c a := by
  constructor
  · intro hc
    rw [toRecord, h.ok hc]
    simp only [Bind.bind, Except.bind, hall]
    rfl
  · intro hc
    obtain ⟨e, he⟩ := h.error hc
    refine ⟨e, ?_⟩
    rw [toRecord, he]
    rfl

end Decodes

namespace Json

variable {α β : Type} {form : Form} {fields : List (Field α)} {field : Field α} {key : String} {get : α → β}
  {P : Json → β → Prop} {a a' : α}

theorem exists_ok_of_bind {step : Decoded α} {next : α → Decoded β} {b : β} (h : step >>= next = .ok b) :
    ∃ a, step = .ok a ∧ next a = .ok b := by
  cases step with
  | error e => cases h
  | ok a => exact ⟨a, rfl, h⟩

theorem exists_ok_of_map {reading : Decoded α} {f : α → β} {b : β} (h : reading.map f = .ok b) :
    ∃ a, reading = .ok a ∧ b = f a := by
  cases reading with
  | error e => cases h
  | ok a =>
    cases h
    exact ⟨a, rfl, rfl⟩

structure Field.Gives (field : Field α) (get : α → β) (P : Json → β → Prop) (others : List (Field α)) : Prop where
  own : ∀ {j a a'}, field.read j a = .ok a' → P j (get a')
  other : ∀ f ∈ others, ∀ {j a a'}, f.read j a = .ok a' → get a' = get a

theorem get_may {γ : Type} {name : String} {read : Json → Decoded γ} {put : γ → α → α} (get : α → β)
    (hput : ∀ c a, get (put c a) = get a) {j : Json} (h : (may name read put).read j a = .ok a') : get a' = get a := by
  obtain ⟨c, -, rfl⟩ := exists_ok_of_map h
  exact hput c a

def firstPart? (key : String) : Json → Option Json
  | .object entries => entries.lookup key
  | .array (j :: _) => some j
  | _ => none

theorem readEntries_gives (h : field.Gives get P fields) {seen seen' : List String} {entries : List (String × Json)}
    (hread : readEntries (field :: fields) seen a entries = .ok (seen', a')) :
    match entries.lookup field.name with
    | none => get a' = get a
    | some j => seen.contains field.name = false ∧ P j (get a') := by
  -- By induction on the entries. The field is read where its name stands first; if the name stood in the rest too,
  -- reading would have failed, as it has been seen by then.
  induction entries generalizing seen a with
  | nil =>
    cases hread
    rfl
  | cons entry rest ih =>
    obtain ⟨key, j⟩ := entry
    rw [readEntries, List.find?_cons] at hread
    by_cases hkey : key = field.name
    · subst hkey
      rw [beq_self_eq_true] at hread
      dsimp only at hread
      rw [List.lookup_cons, beq_self_eq_true]
      dsimp only
      by_cases hseen : seen.contains field.name = true
      · rw [if_pos hseen] at hread
        cases hread
      · rw [if_neg hseen] at hread
        obtain ⟨b, hb, hread⟩ := exists_ok_of_bind hread
        refine ⟨eq_false_of_ne_true hseen, ?_⟩
        have hrest := ih hread
        cases hlookup : rest.lookup field.name with
        | none =>
          rw [hlookup] at hrest
          exact hrest ▸ h.own hb
        | some j' =>
          rw [hlookup] at hrest
          simp at hrest
    · rw [beq_false_of_ne (Ne.symm hkey)] at hread
      rw [List.lookup_cons, beq_false_of_ne (Ne.symm hkey)]
      dsimp only at hread ⊢
      cases hfind : fields.find? (·.name == key) with
      | none =>
        rw [hfind] at hread
        obtain ⟨_, -, hread⟩ := exists_ok_of_bind hread
        exact ih hread
      | some f =>
        rw [hfind] at hread
        dsimp only at hread
        split at hread
        · cases hread
        · obtain ⟨b, hb, hread⟩ := exists_ok_of_bind hread
          have hkept : get b = get a := h.other f (List.mem_of_find?_eq_some hfind) hb
          have hrest := ih hread
          cases hlookup : rest.lookup field.name with
          | none =>
            rw [hlookup] at hrest
            exact hrest.trans hkept
          | some j' =>
            rw [hlookup] at hrest
            obtain ⟨hseen, hP⟩ := hrest
            rw [List.contains_cons, Bool.or_eq_false_iff] at hseen
            exact ⟨hseen.2, hP⟩

theorem readItems_keeps {others : List (Field α)} (h : ∀ f ∈ others, ∀ {j a a'}, f.read j a = .ok a' → get a' = get a)
    {index : Nat} {items : List Json} (hread : readItems form index a others items = .ok a') : get a' = get a := by
  induction others generalizing index a items with
  | nil =>
    cases items with
    | nil =>
      cases hread
      rfl
    | cons j rest => cases hread
  | cons f others ih =>
    obtain ⟨hf, hothers⟩ := List.forall_mem_cons.mp h
    cases items with
    | nil =>
      rw [readItems] at hread
      split at hread
      · cases hread
      · exact ih hothers hread
    | cons j rest =>
      rw [readItems] at hread
      obtain ⟨b, hb, hread⟩ := exists_ok_of_bind hread
      exact (ih hothers hread).trans (hf hb)

theorem toRecord_gives (get : α → β) (P : Json → β → Prop) (h : field.Gives get P fields) {blank : α} {j : Json}
    (hread : toRecord form (field :: fields) blank j = .ok a) :
    match j.firstPart? field.name with
    | none => get a = get blank
    | some part => P part (get a) := by
  unfold toRecord at hread
  split at hread
  · obtain ⟨⟨seen, b⟩, hb, hread⟩ := exists_ok_of_bind hread
    have hentries := readEntries_gives h hb
    have hab : a = b := by
      dsimp only at hread
      split at hread
      · cases hread
      · cases hread
        rfl
    subst hab
    simp only [firstPart?]
    split at hentries
    · exact hentries
    · exact hentries.2
  · rename_i items
    cases items with
    | nil =>
      rw [readItems] at hread
      split at hread
      · cases hread
      · exact readItems_keeps h.other hread
    | cons part rest =>
      rw [readItems] at hread
      obtain ⟨b, hb, hread⟩ := exists_ok_of_bind hread
      exact readItems_keeps h.other hread ▸ h.own hb
  · cases hread

end Json

end HeaderBinding
