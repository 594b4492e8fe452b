import HeaderBinding.Export.Search
import Mathlib.Logic.Relation

namespace HeaderBinding

section

variable {S T α β : Type}

theorem mapM_cons_apply (step : α → StateM S β) (a : α) (as : List α) (s : S) :
    (a :: as).mapM step s =
      ((step a s).1 :: (as.mapM step (step a s).2).1, (as.mapM step (step a s).2).2) := by
  rw [List.mapM_cons]
  rfl

theorem mapM_along {step : α → StateM S β} {step' : α → StateM T β} (g : S → T)
    (h : ∀ a s, step' a (g s) = ((step a s).1, g (step a s).2)) (as : List α) (s : S) :
    as.mapM step' (g s) = ((as.mapM step s).1, g (as.mapM step s).2) := by
  induction as generalizing s with
  | nil => rfl
  | cons a rest ih => rw [mapM_cons_apply, mapM_cons_apply, h, ih]

theorem mapM_relates {r : S → S → Prop} (hrefl : ∀ s, r s s) (htrans : ∀ {s t u}, r s t → r t u → r s u)
    {step : α → StateM S β} (h : ∀ a s, r s (step a s).2) (as : List α) (s : S) : r s (as.mapM step s).2 := by
  induction as generalizing s with
  | nil => exact hrefl s
  | cons a rest ih =>
    rw [mapM_cons_apply]
    exact htrans (h a s) (ih (step a s).2)

end

variable {σ τ : Type} [ExportProvider σ] [ExportProvider τ]

namespace Inquiry

inductive Opens : Inquiry σ → Inquiry σ → Prop where
  | opens (source : σ) (before : List Candidate) (module : String) (after : List Candidate) :
    Opens ⟨source, before ++ ⟨module, .unopened⟩ :: after⟩
      ⟨(ExportProvider.acquire source module).2,
        before ++ ⟨module, .of (ExportProvider.acquire source module).1⟩ :: after⟩

abbrev Reaches : Inquiry σ → Inquiry σ → Prop :=
  Relation.ReflTransGen Opens

theorem Reaches.keeps {P : Inquiry σ → Prop} {x y : Inquiry σ} (h : x.Reaches y)
    (hP : ∀ {x y : Inquiry σ}, x.Opens y → P x → P y) (hx : P x) : P y := by
  induction h with
  | refl => exact hx
  | tail _ hstep ih => exact hP hstep ih

theorem reaches_ensureOpened (c : Candidate) (source : σ) (before after : List Candidate) :
    Reaches ⟨source, before ++ c :: after⟩
      ⟨(c.ensureOpened source).2, before ++ (c.ensureOpened source).1 :: after⟩ := by
  obtain ⟨module, state⟩ := c
  cases state with
  | unopened => exact .single (.opens source before module after)
  | opened table => exact .refl
  | absent => exact .refl
  | unreadable e => exact .refl

theorem reaches_lookup (name : String) (source : σ) (first : Option ExportMatch) (before cs : List Candidate) :
    Reaches ⟨source, before ++ cs⟩
      ⟨(lookup name source first cs).2.1, before ++ (lookup name source first cs).2.2⟩ := by
  induction cs generalizing source first before with
  | nil => exact .refl
  | cons c rest ih =>
    have hopened := reaches_ensureOpened c source before rest
    have hfurther : ∀ first, Reaches ⟨source, before ++ c :: rest⟩
        ⟨(lookup name (c.ensureOpened source).2 first rest).2.1, before ++ (c.ensureOpened source).1 ::
          (lookup name (c.ensureOpened source).2 first rest).2.2⟩ := by
      intro first
      have hrest := ih (c.ensureOpened source).2 first (before ++ [(c.ensureOpened source).1])
      simp only [List.append_assoc, List.singleton_append] at hrest
      exact hopened.trans hrest
    rw [lookup]
    dsimp only
    cases (c.ensureOpened source).1.state with
    | opened table => exact hfurther _
    | unreadable e =>
      cases first with
      | none => exact hopened
      | some m => exact hfurther (some m)
    | unopened => exact hfurther first
    | absent => exact hfurther first

theorem reaches_find (x : Inquiry σ) (name : String) : x.Reaches (x.find name).2 :=
  reaches_lookup name x.source none [] x.candidates

theorem reaches_findAll (names : List String) (x : Inquiry σ) : x.Reaches (findAll names x).2 :=
  mapM_relates (fun _ => .refl) (fun hst htu => hst.trans htu) (fun name x => reaches_find x name) names x

def map (f : σ → τ) (x : Inquiry σ) : Inquiry τ :=
  ⟨f x.source, x.candidates⟩

section

variable {f : σ → τ} (hf : ∀ source module, ExportProvider.acquire (f source) module =
  ((ExportProvider.acquire source module).1, f (ExportProvider.acquire source module).2))

include hf

theorem ensureOpened_map (c : Candidate) (source : σ) :
    c.ensureOpened (f source) = ((c.ensureOpened source).1, f (c.ensureOpened source).2) := by
  obtain ⟨module, state⟩ := c
  cases state with
  | unopened =>
    unfold Candidate.ensureOpened
    dsimp only
    rw [hf]
  | opened table => rfl
  | absent => rfl
  | unreadable e => rfl

theorem lookup_map (name : String) (source : σ) (first : Option ExportMatch) (cs : List Candidate) :
    lookup name (f source) first cs = ((lookup name source first cs).1, f (lookup name source first cs).2.1,
      (lookup name source first cs).2.2) := by
  induction cs generalizing source first with
  | nil => rfl
  | cons c rest ih =>
    rw [lookup, lookup, ensureOpened_map hf]
    dsimp only
    cases (c.ensureOpened source).1.state with
    | unreadable e =>
      cases first with
      | none => rfl
      | some m => simp only [ih, Option.isSome_some, if_true]
    | _ => simp only [ih]

theorem find_map (x : Inquiry σ) (name : String) :
    (x.map f).find name = ((x.find name).1, (x.find name).2.map f) := by
  unfold find map
  rw [lookup_map hf]

theorem findAll_map (names : List String) (x : Inquiry σ) :
    findAll names (x.map f) = ((findAll names x).1, (findAll names x).2.map f) :=
  mapM_along (map f) (fun name x => find_map hf x name) names x

end

theorem foldl_release (tables : List ExportTable) (source : ExportSource) :
    tables.foldl ExportProvider.release source = source.release tables.length := by
  induction tables generalizing source with
  | nil => rfl
  | cons table rest ih =>
    rw [List.foldl_cons, ih, List.length_cons]
    change ({ source with held := source.held - 1 - rest.length } : ExportSource) = _
    rw [ExportSource.release, Nat.sub_sub, Nat.add_comm 1]

end Inquiry

end HeaderBinding
