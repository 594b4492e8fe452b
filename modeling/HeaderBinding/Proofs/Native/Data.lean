import HeaderBinding.Proofs.Literal.Data
import HeaderBinding.Proofs.Native.Qualifiers
import HeaderBinding.Proofs.Native.Rewrite

namespace HeaderBinding

open Json (need may)

section

variable {α β : Type} {key : String} {toJson : β → Json} {o : Option β} {es fs : List (String × Json)}

theorem entriesReadAs_optional_append : Json.EntriesReadAs (optional key toJson o ++ es) fs ↔
    ∃ ko gs, fs = optional key id ko ++ gs ∧ Option.Rel (fun b k => (toJson b).ReadsAs k) o ko ∧
      Json.EntriesReadAs es gs := by
  cases o with
  | none =>
    constructor
    · intro h
      exact ⟨none, fs, rfl, .none, h⟩
    · rintro ⟨_, gs, rfl, ⟨⟩, h⟩
      exact h
  | some b =>
    constructor
    · intro h
      obtain ⟨k, gs, rfl, hk, hgs⟩ := Json.entriesReadAs_cons.mp h
      exact ⟨some k, gs, rfl, .some hk, hgs⟩
    · rintro ⟨_, gs, rfl, ⟨hk⟩, hgs⟩
      exact Json.entriesReadAs_cons.mpr ⟨_, gs, rfl, hk, hgs⟩

theorem entriesReadAs_optional : Json.EntriesReadAs (optional key toJson o) fs ↔
    ∃ ko, fs = optional key id ko ∧ Option.Rel (fun b k => (toJson b).ReadsAs k) o ko := by
  have h := @entriesReadAs_optional_append β key toJson o [] fs
  rw [List.append_nil] at h
  simpa using h

theorem isFiniteEntries_optional_append : Json.isFiniteEntries (optional key toJson o ++ es) = true ↔
    (∀ b ∈ o, (toJson b).isFinite = true) ∧ Json.isFiniteEntries es = true := by
  cases o <;> simp [optional, Json.isFiniteEntries]

theorem isFiniteEntries_optional : Json.isFiniteEntries (optional key toJson o) = true ↔
    ∀ b ∈ o, (toJson b).isFinite = true := by
  cases o <;> simp [optional, Json.isFiniteEntries]

theorem Decodes.optionalField {fields : List (Json.Field α)} {seen : List String} {a : α} {name : String}
    {required : Bool} {read : Json → Decoded (Option β)} {put : Option β → α → α} {ko : Option Json}
    {R : β → Json → Prop} {condition : β → Prop} {c' : Prop} {rest : List (String × Json)} {result : List String × α}
    (hfind : fields.find? (·.name == key) = some ⟨name, required, fun j a => (read j).map (put · a)⟩)
    (hseen : seen.contains key = false) (hput : put none a = a)
    (hrel : Option.Rel R o ko) (hread : ∀ b k, R b k → Decodes (read k.sorted) (condition b) (some b))
    (hrest : Decodes (Json.readEntries fields ((optional key id ko).map Prod.fst ++ seen) (put o a) rest) c' result) :
    Decodes (Json.readEntries fields seen a (optional key Json.sorted ko ++ rest))
      ((∀ b ∈ o, condition b) ∧ c') result := by
  cases hrel with
  | none =>
    rw [hput] at hrest
    exact hrest.congr (by simp)
  | some hb => exact (Decodes.field hfind hseen (hread _ _ hb) hrest).congr (by simp)

end

variable {k : Json} (form : Json.Form)

theorem Builtin.decodes (b : Builtin) :
    Decodes (ofJson form (.object [("is_unsigned", .bool b.isUnsigned), ("kind", .string b.kind.word)])) True b := by
  have hkind : Decodes (BuiltinKind.ofJson form (.string b.kind.word)) True b.kind :=
    .of_eq (by cases b.kind <;> rfl)
  have hunsigned : Decodes (Json.toBool (.bool b.isUnsigned)) True b.isUnsigned := .of_eq rfl
  exact Decodes.congr (.record (.field rfl rfl hunsigned (.field rfl rfl hkind .done)) rfl) (by simp)

theorem CallingConvention.decodes (c : CallingConvention) (k : Json) (h : c.toJson.ReadsAs k) :
    Decodes (Json.toOption (ofJson form) k.sorted) True (some c) := by
  obtain rfl := Json.readsAs_string.mp h
  exact .of_eq (by cases c <;> rfl)

theorem Direction.decodes (d : Direction) : Decodes (ofJson form (.string d.word)) True d :=
  .of_eq (by cases d <;> rfl)

theorem ArrayLength.decodes (l : ArrayLength) (h : l.toJson.ReadsAs k) : Decodes (ofJson k.sorted) True l := by
  cases l with
  | fixed n =>
    simp only [toJson, Json.readsAs_object, Json.entriesReadAs_cons, Json.entriesReadAs_nil,
      Json.readsAs_integer] at h
    obtain ⟨_, rfl, _, _, rfl, rfl, rfl⟩ := h
    have hlt : n.toNat < 2 ^ 64 := n.toNat_lt
    have hread : (Json.integer n.toNat).toNatural (UInt64.size - 1) = .ok n.toNat := by
      rw [Json.toNatural, Json.toInteger, if_pos (by rw [UInt64.size]; omega)]
      rfl
    refine .of_eq ?_
    simp only [Json.sorted, Json.sortedEntries, Json.insertEntry, ofJson, if_true, hread]
    simp [Except.map]
  | constant name =>
    simp only [toJson, Json.readsAs_object, Json.entriesReadAs_cons, Json.entriesReadAs_nil,
      Json.readsAs_string] at h
    obtain ⟨_, rfl, _, _, rfl, rfl, rfl⟩ := h
    exact .of_eq (by simp [Json.sorted, Json.sortedEntries, Json.insertEntry, ofJson, Json.toText, Except.map])

theorem ArrayLength.decodes_optional (l : ArrayLength) (k : Json) (h : l.toJson.ReadsAs k) :
    Decodes (Json.toOption ofJson k.sorted) True (some l) := by
  refine (l.decodes h).toOption ?_
  cases l with
  | fixed n =>
    obtain ⟨es, rfl, -⟩ := Json.readsAs_object.mp h
    simp [Json.sorted]
  | constant name =>
    obtain ⟨es, rfl, -⟩ := Json.readsAs_object.mp h
    simp [Json.sorted]

theorem decodes_text (s : String) : Decodes (Json.toText (.string s)) True s :=
  .of_eq rfl

theorem decodes_optionalText (s : String) (k : Json) (h : k = .string s) :
    Decodes (Json.toOption Json.toText k.sorted) True (some s) := by
  rw [h]
  exact .of_eq rfl

theorem TypedLiteral.decodes_optional (v : TypedLiteral) (k : Json) (h : v.toJson.ReadsAs k) :
    Decodes (Json.toOption (ofJson form) k.sorted) (v.toJson.isFinite = true) (some v) := by
  refine (v.decodes h form).toOption ?_
  obtain ⟨es, rfl, -⟩ := Json.readsAs_object.mp h
  simp [Json.sorted]

theorem Enumerator.decodes (m : Enumerator) (h : m.toJson.ReadsAs k) :
    Decodes (ofJson form k.sorted) (m.toJson.isFinite = true) m := by
  obtain ⟨name, expr, value⟩ := m
  simp only [toJson, List.cons_append, List.nil_append, Json.readsAs_object, Json.entriesReadAs_cons,
    entriesReadAs_optional_append, entriesReadAs_optional, Json.readsAs_string] at h
  obtain ⟨_, rfl, _, _, rfl, rfl, ke, _, rfl, hexpr, kv, rfl, hvalue⟩ := h
  have hsorted : (Json.object (("name", .string name) ::
      (optional "value" id ke ++ optional "resolved" id kv))).sorted =
      .object (("name", .string name) ::
        (optional "resolved" Json.sorted kv ++ (optional "value" Json.sorted ke ++ []))) := by
    cases ke <;> cases kv <;> rfl
  have hname := decodes_text name
  rw [hsorted]
  refine Decodes.congr (.record (.field rfl rfl hname (.optionalField rfl rfl rfl hvalue
    (TypedLiteral.decodes_optional form) (.optionalField rfl (by cases kv <;> rfl) rfl hexpr decodes_optionalText
    .done))) (by cases ke <;> cases kv <;> rfl)) ?_
  simp [toJson, Json.isFinite, Json.isFiniteEntries, isFiniteEntries_optional_append, isFiniteEntries_optional]

theorem Enumeration.decodes (e : Enumeration) {ks : List Json}
    (h : List.Forall₂ Json.ReadsAs (e.members.map Enumerator.toJson) ks) :
    Decodes (ofJson form (.object [("members", .array (Json.sortedItems ks)), ("name", .string e.name)]))
      (∀ m ∈ e.members, m.toJson.isFinite = true) e := by
  have hname := decodes_text e.name
  have hmembers := Decodes.list h fun m _ k _ hk => m.decodes form hk
  rw [List.map_id'] at hmembers
  exact Decodes.congr (.record (.field rfl rfl hmembers (.field rfl rfl hname .done)) rfl) (by simp)

theorem Reference.decodes (r : Reference) :
    Decodes (ofJson form (.object r.entries)) True r.unlink := by
  obtain ⟨name, target, qualifiers⟩ := r
  have hname := decodes_text name
  by_cases hq : qualifiers.bits = 0
  · obtain rfl : qualifiers = .empty := congrArg Qualifiers.mk hq
    exact Decodes.congr (.record (.field rfl rfl hname .done) rfl) (by simp)
  · have hqualifiers : Decodes (Qualifiers.ofJson (.string qualifiers.text)) True qualifiers :=
      .of_eq (by rw [Qualifiers.ofJson, Qualifiers.ofText_text hq])
    rw [entries, if_neg hq]
    exact Decodes.congr (.record (.field rfl rfl hname (.field rfl rfl hqualifiers .done)) rfl) (by simp)

def Member.toJson (m : Member NativeType) : Json :=
  .object [("name", .string m.name), ("type", m.type.toJson)]

def Parameter.toJson (p : Parameter NativeType) : Json :=
  .object [("name", .string p.name), ("type", p.type.toJson), ("direction", .string p.direction.word)]

namespace NativeType

theorem membersJson_eq_map (ms : List (Member NativeType)) : membersJson ms = ms.map Member.toJson := by
  induction ms with
  | nil => rfl
  | cons m rest ih => rw [membersJson, ih, List.map_cons, Member.toJson]

theorem paramsJson_eq_map (ps : List (Parameter NativeType)) : paramsJson ps = ps.map Parameter.toJson := by
  induction ps with
  | nil => rfl
  | cons p rest ih => rw [paramsJson, ih, List.map_cons, Parameter.toJson]

def unlinked (t : NativeType) : NativeType :=
  t.rewrite Reference.unlink id

theorem membersJson_map {f : NativeType → NativeType} {ms : List (Member NativeType)}
    (h : ∀ m ∈ ms, (f m.type).toJson = m.type.toJson) :
    membersJson (ms.map fun m => { m with type := f m.type }) = membersJson ms := by
  rw [membersJson_eq_map, membersJson_eq_map, List.map_map]
  refine List.map_congr_left fun m hm => ?_
  simp only [Function.comp_apply, Member.toJson, h m hm]

theorem paramsJson_map {f : NativeType → NativeType} {ps : List (Parameter NativeType)}
    (h : ∀ p ∈ ps, (f p.type).toJson = p.type.toJson) :
    paramsJson (ps.map fun p => { p with type := f p.type }) = paramsJson ps := by
  rw [paramsJson_eq_map, paramsJson_eq_map, List.map_map]
  refine List.map_congr_left fun p hp => ?_
  simp only [Function.comp_apply, Parameter.toJson, h p hp]

theorem toJson_unlinked (t : NativeType) : t.unlinked.toJson = t.toJson := by
  induction t using children_induction with
  | h t ih =>
    unfold unlinked at ih ⊢
    cases t with
    | record kind body =>
      simp only [children, List.forall_mem_map] at ih
      simp only [rewrite_record, toJson, membersJson_map ih]
    | function s =>
      simp only [children, List.forall_mem_cons, List.forall_mem_map] at ih
      simp only [rewrite_function, toJson, ih.1, paramsJson_map ih.2]
    | builtin b => rfl
    | named r => rfl
    | enumeration e => rfl
    | pointer pointee => simp [toJson, ih pointee (List.mem_singleton_self _)]
    | array element rank length => simp [toJson, ih element (List.mem_singleton_self _)]
    | synonym name target => simp [toJson, ih target (List.mem_singleton_self _)]

def ReadsType (type : Json → Decoded NativeType) (levels : Nat) (t : NativeType) : Prop :=
  ∀ k : Json, t.toJson.ReadsAs k → k.sorted.depth < levels →
    Decodes (type k.sorted) (t.toJson.isFinite = true) t.unlinked

end NativeType

section

open NativeType (ReadsType unlinked)

variable {type : Json → Decoded NativeType} {levels : Nat}

theorem Member.decodes (m : Member NativeType) (h : m.toJson.ReadsAs k) (hk : k.sorted.depth ≤ levels)
    (htype : ReadsType type levels m.type) :
    Decodes (ofJson form type k.sorted) (m.toJson.isFinite = true) { m with type := m.type.unlinked } := by
  simp only [toJson, Json.readsAs_object, Json.entriesReadAs_cons, Json.entriesReadAs_nil,
    Json.readsAs_string] at h
  obtain ⟨_, rfl, _, _, rfl, rfl, kt, _, rfl, hkt, rfl⟩ := h
  have hsorted : (Json.object [("name", .string m.name), ("type", kt)]).sorted =
      .object [("name", .string m.name), ("type", kt.sorted)] := by
    rfl
  rw [hsorted, Json.depth, Json.depthEntries, Json.depthEntries, Json.depthEntries] at hk
  have hname := decodes_text m.name
  have htype := htype _ hkt (by omega)
  rw [hsorted]
  refine Decodes.congr (.record (.field rfl rfl hname (.field rfl rfl htype .done)) rfl) ?_
  simp [toJson, Json.isFinite, Json.isFiniteEntries]

theorem Parameter.decodes (p : Parameter NativeType) (h : p.toJson.ReadsAs k) (hk : k.sorted.depth ≤ levels)
    (htype : ReadsType type levels p.type) :
    Decodes (ofJson form type k.sorted) (p.toJson.isFinite = true) { p with type := p.type.unlinked } := by
  simp only [toJson, Json.readsAs_object, Json.entriesReadAs_cons, Json.entriesReadAs_nil,
    Json.readsAs_string] at h
  obtain ⟨_, rfl, _, _, rfl, rfl, kt, _, rfl, hkt, _, _, rfl, rfl, rfl⟩ := h
  have hsorted : (Json.object [("name", .string p.name), ("type", kt),
      ("direction", .string p.direction.word)]).sorted =
        .object [("direction", .string p.direction.word), ("name", .string p.name), ("type", kt.sorted)] := by
    rfl
  rw [hsorted, Json.depth, Json.depthEntries, Json.depthEntries, Json.depthEntries] at hk
  have hname := decodes_text p.name
  have hdirection := p.direction.decodes form
  have htype := htype _ hkt (by rw [Json.depthEntries] at hk; omega)
  rw [hsorted]
  refine Decodes.congr (.record (.field rfl rfl hdirection (.field rfl rfl hname (.field rfl rfl htype .done))) rfl) ?_
  simp [toJson, Json.isFinite, Json.isFiniteEntries]

theorem decodes_members {ms : List (Member NativeType)} {ks : List Json}
    (h : List.Forall₂ Json.ReadsAs (ms.map Member.toJson) ks) (hks : Json.depthItems (Json.sortedItems ks) ≤ levels)
    (htypes : ∀ m ∈ ms, ReadsType type levels m.type) :
    Decodes (Json.toList (Member.ofJson form type) (.array (Json.sortedItems ks)))
      (∀ m ∈ ms, m.toJson.isFinite = true) (ms.map fun m => { m with type := m.type.unlinked }) := by
  refine Decodes.list h fun m hm k hk hmk => m.decodes form hmk ?_ (htypes m hm)
  rw [Json.sortedItems_eq_map] at hks
  exact Nat.le_trans (Json.depth_le_depthItems (List.mem_map_of_mem hk)) hks

theorem decodes_params {ps : List (Parameter NativeType)} {ks : List Json}
    (h : List.Forall₂ Json.ReadsAs (ps.map Parameter.toJson) ks)
    (hks : Json.depthItems (Json.sortedItems ks) ≤ levels) (htypes : ∀ p ∈ ps, ReadsType type levels p.type) :
    Decodes (Json.toList (Parameter.ofJson form type) (.array (Json.sortedItems ks)))
      (∀ p ∈ ps, p.toJson.isFinite = true) (ps.map fun p => { p with type := p.type.unlinked }) := by
  refine Decodes.list h fun p hp k hk hpk => p.decodes form hpk ?_ (htypes p hp)
  rw [Json.sortedItems_eq_map] at hks
  exact Nat.le_trans (Json.depth_le_depthItems (List.mem_map_of_mem hk)) hks

end

namespace NativeType

theorem decodes_body {type : Json → Decoded NativeType} {levels : Nat} (body : Record NativeType) {ks : List Json}
    (h : List.Forall₂ Json.ReadsAs (body.members.map Member.toJson) ks)
    (hks : Json.depthItems (Json.sortedItems ks) ≤ levels) (htypes : ∀ m ∈ body.members, ReadsType type levels m.type) :
    Decodes (Record.ofJson form type (.object [("members", .array (Json.sortedItems ks)), ("name", .string body.name)]))
      (∀ m ∈ body.members, m.toJson.isFinite = true)
      ⟨body.name, body.members.map fun m => { m with type := m.type.unlinked }⟩ := by
  have hname := decodes_text body.name
  have hmembers := decodes_members form h hks htypes
  exact Decodes.congr (.record (.field rfl rfl hmembers (.field rfl rfl hname .done)) rfl) (by simp)

theorem readsType_of_content {t : NativeType} {form : Json.Form} {levels : Nat}
    (h : ∀ k : Json, t.toJson.ReadsAs k → k.sorted.depth < levels → ∃ before after,
      k.sorted = .object (before ++ ("node", .string t.word) :: after) ∧ (∀ e ∈ before ++ after, e.1 ≠ "node") ∧
      Decodes (ofContent (ofJsonWithin (levels - 1) .held) t.word (.object (before ++ after)))
        (t.toJson.isFinite = true) t.unlinked) :
    ReadsType (ofJsonWithin levels form) levels t := by
  intro k hread hk
  obtain ⟨levels, rfl⟩ : ∃ n, levels = n + 1 := ⟨levels - 1, by omega⟩
  obtain ⟨before, after, hsorted, hkeys, hcontent⟩ := h k hread hk
  have hword : words.contains t.word = true := by
    cases t with
    | record kind body => cases kind <;> rfl
    | _ => rfl
  have htag := Json.toTagged_sorted form hread hword before after hsorted hkeys
  rw [ofJsonWithin, htag]
  exact hcontent

section

variable {form : Json.Form} {levels : Nat}

theorem readsType_builtin (b : Builtin) : ReadsType (ofJsonWithin levels form) levels (.builtin b) := by
  refine readsType_of_content fun k h _ => ?_
  simp only [toJson, Builtin.entries, Json.readsAs_object, Json.entriesReadAs_cons, Json.entriesReadAs_nil,
    Json.readsAs_string, Json.readsAs_bool] at h
  obtain ⟨_, rfl, _, _, rfl, rfl, _, _, rfl, rfl, _, _, rfl, rfl, rfl⟩ := h
  have hcontent := (b.decodes .held).map NativeType.builtin
  refine ⟨[("is_unsigned", .bool b.isUnsigned), ("kind", .string b.kind.word)], [], ?_, by simp, ?_⟩
  · rfl
  · exact hcontent.congr (by simp [toJson, Builtin.entries, Json.isFinite, Json.isFiniteEntries])

theorem readsType_pointer {pointee : NativeType}
    (hpointee : ReadsType (ofJsonWithin (levels - 1) .held) (levels - 1) pointee) :
    ReadsType (ofJsonWithin levels form) levels (.pointer pointee) := by
  refine readsType_of_content fun k h hk => ?_
  simp only [toJson, Json.readsAs_object, Json.entriesReadAs_cons, Json.entriesReadAs_nil,
    Json.readsAs_string] at h
  obtain ⟨_, rfl, _, _, rfl, rfl, kt, _, rfl, hkt, rfl⟩ := h
  have hsorted : (Json.object [("node", .string "pointer"), ("pointee", kt)]).sorted =
      .object ([] ++ ("node", .string (word (.pointer pointee))) :: [("pointee", kt.sorted)]) := by
    rfl
  rw [hsorted] at hk
  simp only [List.nil_append, Json.depth, Json.depthEntries] at hk
  have htype := hpointee _ hkt (by omega)
  have hcontent : Decodes (Json.toRecord .held [need "pointee" (ofJsonWithin (levels - 1) .held) fun t _ => t] void
      (.object [("pointee", kt.sorted)])) _ pointee.unlinked := .record (.field rfl rfl htype .done) rfl
  refine ⟨[], [("pointee", kt.sorted)], hsorted, by simp, (hcontent.map pointer).congr ?_⟩
  simp [toJson, Json.isFinite, Json.isFiniteEntries]

theorem readsType_array {element : NativeType} (rank : UInt32) (length : Option ArrayLength)
    (helement : ReadsType (ofJsonWithin (levels - 1) .held) (levels - 1) element) :
    ReadsType (ofJsonWithin levels form) levels (.array element rank length) := by
  have hrank : Decodes ((Json.integer rank.toNat).toNatural (UInt32.size - 1)) True rank.toNat := by
    have hlt : rank.toNat < 2 ^ 32 := rank.toNat_lt
    refine .of_eq ?_
    rw [Json.toNatural, Json.toInteger, if_pos (by rw [UInt32.size]; omega)]
    rfl
  have hback : UInt32.ofNat rank.toNat = rank := UInt32.ofNat_toNat
  let fields : List (Json.Field (NativeType × UInt32 × Option ArrayLength)) :=
    [need "element" (ofJsonWithin (levels - 1) .held) fun t a => (t, a.2),
     may "rank" (Json.toNatural (UInt32.size - 1)) fun n a => (a.1, UInt32.ofNat n, a.2.2),
     may "length" (Json.toOption ArrayLength.ofJson) fun l a => (a.1, a.2.1, l)]
  refine readsType_of_content fun k h hk => ?_
  simp only [toJson, List.cons_append, List.nil_append, Json.readsAs_object, Json.entriesReadAs_cons,
    entriesReadAs_optional, Json.readsAs_string, Json.readsAs_integer] at h
  obtain ⟨_, rfl, _, _, rfl, rfl, kt, _, rfl, hkt, _, _, rfl, rfl, kl, rfl, hlength⟩ := h
  have hsorted : (Json.object (("node", .string "array") :: ("element", kt) :: ("rank", .integer rank.toNat) ::
      optional "length" id kl)).sorted =
      .object ((("element", kt.sorted) :: optional "length" Json.sorted kl) ++
        ("node", .string (word (.array element rank length))) :: [("rank", .integer rank.toNat)]) := by
    cases kl <;> rfl
  have hdepth : kt.sorted.depth < levels - 1 := by
    rw [hsorted] at hk
    simp only [List.cons_append, Json.depth, Json.depthEntries] at hk
    omega
  have htype := helement _ hkt hdepth
  have hcontent : Decodes (Json.toRecord .held fields (void, 1, none)
      (.object (("element", kt.sorted) :: (optional "length" Json.sorted kl ++ [("rank", .integer rank.toNat)])))) _
      (element.unlinked, UInt32.ofNat rank.toNat, length) :=
    .record (.field rfl rfl htype (.optionalField rfl rfl rfl hlength ArrayLength.decodes_optional
      (.field rfl (by cases kl <;> rfl) hrank .done))) (by cases kl <;> rfl)
  rw [hback] at hcontent
  have hnode := hcontent.map fun x => array x.1 x.2.1 x.2.2
  have hkeys : ∀ e ∈ (("element", kt.sorted) :: optional "length" Json.sorted kl) ++ [("rank", .integer rank.toNat)],
      e.1 ≠ "node" := by
    cases kl <;> simp [optional]
  have hfinite : ∀ l : ArrayLength, l.toJson.isFinite = true := fun l => by cases l <;> rfl
  refine ⟨_, _, hsorted, hkeys, hnode.congr ?_⟩
  simp [toJson, Json.isFinite, Json.isFiniteEntries, isFiniteEntries_optional, hfinite]

theorem readsType_synonym (name : String) {target : NativeType}
    (htarget : ReadsType (ofJsonWithin (levels - 1) .held) (levels - 1) target) :
    ReadsType (ofJsonWithin levels form) levels (.synonym name target) := by
  refine readsType_of_content fun k h hk => ?_
  simp only [toJson, Json.readsAs_object, Json.entriesReadAs_cons, Json.entriesReadAs_nil,
    Json.readsAs_string] at h
  obtain ⟨_, rfl, _, _, rfl, rfl, _, _, rfl, rfl, kt, _, rfl, hkt, rfl⟩ := h
  have hsorted : (Json.object [("node", .string "type_def"), ("name", .string name), ("target", kt)]).sorted =
      .object ([("name", .string name)] ++ ("node", .string (word (.synonym name target))) ::
        [("target", kt.sorted)]) := by
    rfl
  rw [hsorted] at hk
  simp only [List.cons_append, List.nil_append, Json.depth, Json.depthEntries] at hk
  have hname := decodes_text name
  have htype := htarget _ hkt (by omega)
  have hcontent : Decodes (Json.toRecord .held
      [need "name" Json.toText fun name a => (name, a.2),
       need "target" (ofJsonWithin (levels - 1) .held) fun t a => (a.1, t)]
      ("", void) (.object [("name", .string name), ("target", kt.sorted)])) _ (name, target.unlinked) :=
    .record (.field rfl rfl hname (.field rfl rfl htype .done)) rfl
  have hnode := hcontent.map fun x => synonym x.1 x.2
  refine ⟨_, _, hsorted, by simp, hnode.congr ?_⟩
  simp [toJson, Json.isFinite, Json.isFiniteEntries]

theorem readsType_named (r : Reference) : ReadsType (ofJsonWithin levels form) levels (.named r) := by
  refine readsType_of_content fun k h _ => ?_
  have hcontent := (r.decodes .held).map NativeType.named
  by_cases hq : r.qualifiers.bits = 0
  · simp only [toJson, Reference.entries, if_pos hq, Json.readsAs_object, Json.entriesReadAs_cons,
      Json.entriesReadAs_nil, Json.readsAs_string] at h
    obtain ⟨_, rfl, _, _, rfl, rfl, _, _, rfl, rfl, rfl⟩ := h
    rw [Reference.entries, if_pos hq] at hcontent
    refine ⟨[("name", .string r.name)], [], ?_, by simp, ?_⟩
    · rfl
    · exact hcontent.congr (by simp [toJson, Reference.entries, hq, Json.isFinite, Json.isFiniteEntries])
  · simp only [toJson, Reference.entries, if_neg hq, Json.readsAs_object, Json.entriesReadAs_cons,
      Json.entriesReadAs_nil, Json.readsAs_string] at h
    obtain ⟨_, rfl, _, _, rfl, rfl, _, _, rfl, rfl, _, _, rfl, rfl, rfl⟩ := h
    rw [Reference.entries, if_neg hq] at hcontent
    refine ⟨[("name", .string r.name)], [("qualifiers", .string r.qualifiers.text)], ?_, by simp, ?_⟩
    · rfl
    · exact hcontent.congr (by simp [toJson, Reference.entries, hq, Json.isFinite, Json.isFiniteEntries])

theorem readsType_record (kind : RecordKind) {body : Record NativeType}
    (hmembers : ∀ m ∈ body.members, ReadsType (ofJsonWithin (levels - 1) .held) (levels - 1) m.type) :
    ReadsType (ofJsonWithin levels form) levels (.record kind body) := by
  refine readsType_of_content fun k h hk => ?_
  simp only [toJson, membersJson_eq_map, Json.readsAs_object, Json.entriesReadAs_cons, Json.entriesReadAs_nil,
    Json.readsAs_string, Json.readsAs_array] at h
  obtain ⟨_, rfl, _, _, rfl, rfl, _, _, rfl, rfl, _, _, rfl, ⟨ks, rfl, hks⟩, rfl⟩ := h
  have hsorted : (Json.object [("node", .string kind.word), ("name", .string body.name),
      ("members", .array ks)]).sorted =
        .object ([("members", .array (Json.sortedItems ks)), ("name", .string body.name)] ++
          ("node", .string (word (.record kind body))) :: []) := by
    rfl
  rw [hsorted] at hk
  simp only [List.cons_append, List.nil_append, Json.depth, Json.depthEntries] at hk
  have hbody := decodes_body .held body hks (by omega) hmembers
  have hfinite : (record kind body).toJson.isFinite = true ↔ ∀ m ∈ body.members, m.toJson.isFinite = true := by
    simp [toJson, membersJson_eq_map, Json.isFinite, Json.isFiniteEntries, Json.isFiniteItems_eq_all]
  refine ⟨_, _, hsorted, by simp, ?_⟩
  rw [unlinked, rewrite_record]
  cases kind with
  | struct => exact (hbody.map (NativeType.record .struct)).congr hfinite
  | union => exact (hbody.map (NativeType.record .union)).congr hfinite

theorem readsType_enumeration (e : Enumeration) : ReadsType (ofJsonWithin levels form) levels (.enumeration e) := by
  refine readsType_of_content fun k h _ => ?_
  simp only [toJson, Enumeration.entries, Json.readsAs_object, Json.entriesReadAs_cons, Json.entriesReadAs_nil,
    Json.readsAs_string, Json.readsAs_array] at h
  obtain ⟨_, rfl, _, _, rfl, rfl, _, _, rfl, rfl, _, _, rfl, ⟨ks, rfl, hks⟩, rfl⟩ := h
  have hcontent := (e.decodes .held hks).map NativeType.enumeration
  refine ⟨[("members", .array (Json.sortedItems ks)), ("name", .string e.name)], [], ?_, by simp, ?_⟩
  · rfl
  · refine hcontent.congr ?_
    simp [toJson, Enumeration.entries, Json.isFinite, Json.isFiniteEntries, Json.isFiniteItems_eq_all]

theorem readsType_function {s : Signature NativeType}
    (hreturns : ReadsType (ofJsonWithin (levels - 1) .held) (levels - 1) s.returns)
    (hparams : ∀ p ∈ s.params, ReadsType (ofJsonWithin (levels - 1) .held) (levels - 1) p.type) :
    ReadsType (ofJsonWithin levels form) levels (.function s) := by
  obtain ⟨name, returns, params, convention⟩ := s
  refine readsType_of_content fun k h hk => ?_
  simp only [toJson, paramsJson_eq_map, List.cons_append, List.nil_append, Json.readsAs_object,
    Json.entriesReadAs_cons, entriesReadAs_optional, Json.readsAs_string, Json.readsAs_array] at h
  obtain ⟨_, rfl, _, _, rfl, rfl, _, _, rfl, rfl, kt, _, rfl, hkt, _, _, rfl, ⟨ks, rfl, hks⟩, kc, rfl, hconvention⟩ := h
  have hsorted : (Json.object (("node", .string "function_pointer") :: ("name", .string name) :: ("return_type", kt) ::
      ("params", .array ks) :: optional "calling_convention" id kc)).sorted =
      .object ((optional "calling_convention" Json.sorted kc ++ [("name", .string name)]) ++
        ("node", .string (word (.function ⟨name, returns, params, convention⟩))) ::
        [("params", .array (Json.sortedItems ks)), ("return_type", kt.sorted)]) := by
    cases kc <;> rfl
  have hdepth : kt.sorted.depth < levels - 1 ∧ Json.depthItems (Json.sortedItems ks) ≤ levels - 1 := by
    rw [hsorted] at hk
    cases kc <;> simp only [optional, List.cons_append, List.nil_append, Json.depth, Json.depthEntries] at hk <;>
      omega
  have hname := decodes_text name
  have htype := hreturns _ hkt hdepth.1
  have hitems := decodes_params .held hks hdepth.2 hparams
  have hcontent : Decodes (Signature.ofJson .held (ofJsonWithin (levels - 1) .held)
      (.object (optional "calling_convention" Json.sorted kc ++ [("name", .string name),
        ("params", .array (Json.sortedItems ks)), ("return_type", kt.sorted)]))) _
      ⟨name, returns.unlinked, params.map fun p => { p with type := p.type.unlinked }, convention⟩ :=
    .record (.optionalField rfl rfl rfl hconvention (CallingConvention.decodes .held)
      (.field rfl (by cases kc <;> rfl) hname (.field rfl (by cases kc <;> rfl) hitems
        (.field rfl (by cases kc <;> rfl) htype .done)))) (by cases kc <;> rfl)
  have hkeys : ∀ e ∈ (optional "calling_convention" Json.sorted kc ++ [("name", .string name)]) ++
      [("params", .array (Json.sortedItems ks)), ("return_type", kt.sorted)], e.1 ≠ "node" := by
    cases kc <;> simp [optional]
  refine ⟨_, _, hsorted, hkeys, ?_⟩
  rw [unlinked, rewrite_function, List.append_assoc]
  refine (hcontent.map NativeType.function).congr ?_
  simp [toJson, paramsJson_eq_map, CallingConvention.toJson, isFiniteEntries_optional, Json.isFinite,
    Json.isFiniteEntries, Json.isFiniteItems_eq_all, and_comm]

end

theorem readsType_ofJsonWithin (t : NativeType) (form : Json.Form) (levels : Nat) :
    ReadsType (ofJsonWithin levels form) levels t := by
  induction t using children_induction generalizing form levels with
  | h t ih =>
    cases t with
    | builtin b => exact readsType_builtin b
    | pointer pointee => exact readsType_pointer (ih pointee (List.mem_singleton_self _) _ _)
    | array element rank length =>
      exact readsType_array rank length (ih element (List.mem_singleton_self _) _ _)
    | synonym name target => exact readsType_synonym name (ih target (List.mem_singleton_self _) _ _)
    | named r => exact readsType_named r
    | record kind body => exact readsType_record kind fun m hm => ih m.type (List.mem_map_of_mem hm) _ _
    | enumeration e => exact readsType_enumeration e
    | function s =>
      have hreturns := ih s.returns (List.mem_cons_self ..) .held (levels - 1)
      have hparams := fun p hp =>
        ih (Parameter.type p) (List.mem_cons_of_mem _ (List.mem_map_of_mem hp)) .held (levels - 1)
      exact readsType_function hreturns hparams

theorem readsType_ofJson (t : NativeType) (form : Json.Form) (levels : Nat) :
    ReadsType (ofJson form) levels t :=
  fun k h _ => readsType_ofJsonWithin t form (k.sorted.depth + 1) k h (Nat.lt_succ_self _)

end NativeType

end HeaderBinding
