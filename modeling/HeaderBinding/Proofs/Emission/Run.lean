import HeaderBinding.Proofs.Emission.Depth
import HeaderBinding.Proofs.Emission.Plan

namespace HeaderBinding

open Managed (TypeDecl TypeRef)

inductive Runs (o : EmitOptions) (s : Store) : Draft → List Job → List Marshalled → Draft → Prop where
  | nil (d : Draft) : Runs o s d [] [] d
  | leaf {d d' : Draft} {j : Job} {js : List Job} {u : Marshalled} {us : List Marshalled} :
      j.plan o s = .leaf u → Runs o s (j.note s d) js us d' → Runs o s d (j :: js) (u :: us) d'
  | inner {d d₁ d' : Draft} {j : Job} {js : List Job} {x : Site} {wrap : Marshalled → Marshalled} {u : Marshalled}
      {us : List Marshalled} : j.plan o s = .inner x wrap → Runs o s (j.note s d) [.use x] [u] d₁ →
      Runs o s d₁ js us d' → Runs o s d (j :: js) (wrap u :: us) d'
  | held {d d' : Draft} {j : Job} {js : List Job} {name given : String} {t : NativeType} {us : List Marshalled} :
      j.plan o s = .body name t → Draft.claim name t d = ((given, false), d) → Runs o s d js us d' →
      Runs o s d (j :: js) (.plain (.named given) :: us) d'
  | fresh {d d₁ d₂ d' : Draft} {j : Job} {js : List Job} {name given : String} {t : NativeType}
      {vs us : List Marshalled} : j.plan o s = .body name t → Draft.claim name t d = ((given, true), d₁) →
      Runs o s (d₁.enter given t) ((bodySites given t).map .use) vs d₂ →
      Runs o s ((Draft.leave t d₁ d₂).declare (bodyDecl o given t vs)) js us d' →
      Runs o s d (j :: js) (.plain (.named given) :: us) d'

variable {o : EmitOptions} {s : Store} {d d₁ d' : Draft} {j : Job} {js ks : List Job} {us vs : List Marshalled}

namespace Job

variable {name : String} {t : NativeType}

theorem note_of_body (h : j.plan o s = .body name t) : j.note s = id := by
  cases j with
  | declare _ _ => rfl
  | use x =>
    have hlength : x.length? s = none := by
      unfold Site.length?
      split
      · rename_i element rank length hdenoted hposition
        simp only [Job.plan, Site.plan, hdenoted, hposition, arrayPlan] at h
        split at h
        · cases h
        · split at h <;> cases h
      · rfl
    rw [Job.note, hlength]
    rfl

theorem perform_leaf {use : NativeType → Position → String → Emit Marshalled} {u : Marshalled}
    (h : j.plan o s = .leaf u) (d : Draft) : j.perform o s use d = some (u, j.note s d) := by
  unfold perform
  rw [h]
  rfl

theorem perform_inner {use : NativeType → Position → String → Emit Marshalled} {x : Site}
    {wrap : Marshalled → Marshalled} (h : j.plan o s = .inner x wrap) (d : Draft) :
    j.perform o s use d = (wrap <$> useAt use x) (j.note s d) := by
  unfold perform
  rw [h]
  rfl

theorem perform_body {use : NativeType → Position → String → Emit Marshalled} (h : j.plan o s = .body name t)
    (d : Draft) : j.perform o s use d = (Marshalled.plain <$> declareBody o use name t) d := by
  unfold perform
  rw [h, note_of_body h]
  rfl

end Job

theorem Emit.map_eq_some {α β : Type} {x : Emit α} {f : α → β} {d d' : Draft} {b : β}
    (h : (f <$> x) d = some (b, d')) : ∃ a, x d = some (a, d') ∧ f a = b := by
  rw [← bind_pure_comp] at h
  obtain ⟨a, d₁, ha, hb⟩ := Emit.bind_eq_some h
  cases hb
  exact ⟨a, ha, rfl⟩

theorem Emit.map_eq {α β : Type} {x : Emit α} {d d' : Draft} {a : α} (h : x d = some (a, d')) (f : α → β) :
    (f <$> x) d = some (f a, d') := by
  rw [← bind_pure_comp]
  exact Emit.bind_eq h

section

variable {use : NativeType → Position → String → Emit Marshalled} {name given : String} {t : NativeType}
  {decl : TypeDecl} {u : TypeRef}

theorem makeBody_eq_some_iff : makeBody o use given t d = some (decl, d') ↔
    ∃ vs d₂, (bodySites given t).mapM (useAt use) (d.enter given t) = some (vs, d₂) ∧
      decl = bodyDecl o given t vs ∧ d' = Draft.leave t d d₂ := by
  unfold makeBody
  constructor
  · intro h
    obtain ⟨before, _, hbefore, h⟩ := Emit.bind_eq_some h
    cases hbefore
    obtain ⟨_, _, henter, h⟩ := Emit.bind_eq_some h
    cases henter
    obtain ⟨vs, d₂, hvs, h⟩ := Emit.bind_eq_some h
    cases h
    exact ⟨vs, d₂, hvs, rfl, rfl⟩
  · rintro ⟨vs, d₂, hvs, rfl, rfl⟩
    have hget : (get : Emit Draft) d = some (d, d) := rfl
    have henter : (modify (Draft.enter given t) : Emit PUnit) d = some (⟨⟩, d.enter given t) := rfl
    rw [Emit.bind_eq hget, Emit.bind_eq henter, Emit.bind_eq hvs]
    rfl

theorem Draft.claim_held (h : claim name t d = ((given, false), d₁)) : d₁ = d := by
  rcases claim_cases name t d with ⟨_, _, _, heq⟩ | ⟨_, _, _, _, heq⟩
  · cases h.symm.trans heq
  · cases h.symm.trans heq
    rfl

theorem declareBody_eq_some_iff : declareBody o use name t d = some (u, d') ↔
    ∃ given, u = .named given ∧ (Draft.claim name t d = ((given, false), d) ∧ d' = d ∨
      ∃ d₁ d₂ vs, Draft.claim name t d = ((given, true), d₁) ∧
        (bodySites given t).mapM (useAt use) (d₁.enter given t) = some (vs, d₂) ∧
        d' = (Draft.leave t d₁ d₂).declare (bodyDecl o given t vs)) := by
  unfold declareBody declareOnce
  constructor
  · intro h
    obtain ⟨⟨given, isNew⟩, dc, hclaim, h⟩ := Emit.bind_eq_some h
    have hclaim : Draft.claim name t d = ((given, isNew), dc) := Option.some.inj hclaim
    cases isNew with
    | false =>
      cases h
      obtain rfl := Draft.claim_held hclaim
      exact ⟨given, rfl, .inl ⟨hclaim, rfl⟩⟩
    | true =>
      obtain ⟨decl, d₃, hmake, h⟩ := Emit.bind_eq_some h
      obtain ⟨vs, d₂, hvs, rfl, rfl⟩ := makeBody_eq_some_iff.mp hmake
      cases h
      exact ⟨given, rfl, .inr ⟨dc, d₂, vs, hclaim, hvs, rfl⟩⟩
  · rintro ⟨given, rfl, ⟨hclaim, rfl⟩ | ⟨d₁, d₂, vs, hclaim, hvs, rfl⟩⟩
    · rw [Emit.bind_eq (congrArg some hclaim)]
      rfl
    · rw [Emit.bind_eq (congrArg some hclaim)]
      exact (Emit.bind_eq (makeBody_eq_some_iff.mpr ⟨vs, d₂, hvs, rfl, rfl⟩)).trans rfl

end

theorem useAt_succ (o : EmitOptions) (s : Store) (depth : Nat) (x : Site) :
    useAt (marshalWithin o s (depth + 1)) x = Job.perform o s (marshalWithin o s depth) (.use x) :=
  marshalStep_eq x

theorem mapM_useAt_succ (o : EmitOptions) (s : Store) (depth : Nat) (xs : List Site) :
    xs.mapM (useAt (marshalWithin o s (depth + 1))) =
      (xs.map .use).mapM (Job.perform o s (marshalWithin o s depth)) := by
  rw [List.mapM_map]
  exact congrArg (List.mapM · xs) (funext (useAt_succ o s depth))

theorem eq_nil_of_mapM_useAt_zero {xs : List Site} (h : xs.mapM (useAt (marshalWithin o s 0)) d = some (us, d')) :
    xs = [] ∧ us = [] ∧ d' = d := by
  cases xs with
  | nil =>
    cases h
    exact ⟨rfl, rfl, rfl⟩
  | cons x xs =>
    rw [List.mapM_cons] at h
    obtain ⟨u, d₁, hu, -⟩ := Emit.bind_eq_some h
    cases hu

theorem runs_of_mapM_perform {depth : Nat}
    (huse : ∀ {xs : List Site} {d d' : Draft} {us : List Marshalled},
      xs.mapM (useAt (marshalWithin o s depth)) d = some (us, d') → Runs o s d (xs.map .use) us d')
    (h : js.mapM (Job.perform o s (marshalWithin o s depth)) d = some (us, d')) : Runs o s d js us d' := by
  induction js generalizing d us with
  | nil =>
    cases h
    exact .nil _
  | cons j js ih =>
    rw [List.mapM_cons] at h
    obtain ⟨u, d₁, hu, h⟩ := Emit.bind_eq_some h
    obtain ⟨us, d₂, hrest, h⟩ := Emit.bind_eq_some h
    cases h
    cases hplan : j.plan o s with
    | leaf u' =>
      rw [Job.perform_leaf hplan] at hu
      cases hu
      exact .leaf hplan (ih hrest)
    | inner x wrap =>
      rw [Job.perform_inner hplan] at hu
      obtain ⟨v, hv, rfl⟩ := Emit.map_eq_some hu
      have hsingle : [x].mapM (useAt (marshalWithin o s depth)) (j.note s d) = some ([v], d₁) := by
        rw [List.mapM_cons]
        exact Emit.bind_eq hv
      exact .inner hplan (huse hsingle) (ih hrest)
    | body name t =>
      rw [Job.perform_body hplan] at hu
      obtain ⟨r, hr, rfl⟩ := Emit.map_eq_some hu
      obtain ⟨given, rfl, ⟨hclaim, rfl⟩ | ⟨d₁, d₂, vs, hclaim, hvs, rfl⟩⟩ := declareBody_eq_some_iff.mp hr
      · exact .held hplan hclaim (ih hrest)
      · exact .fresh hplan hclaim (huse hvs) (ih hrest)

theorem runs_of_mapM_useAt {depth : Nat} {xs : List Site}
    (h : xs.mapM (useAt (marshalWithin o s depth)) d = some (us, d')) : Runs o s d (xs.map .use) us d' := by
  induction depth generalizing xs d us d' with
  | zero =>
    obtain ⟨rfl, rfl, rfl⟩ := eq_nil_of_mapM_useAt_zero h
    exact .nil _
  | succ depth ih =>
    rw [mapM_useAt_succ] at h
    exact runs_of_mapM_perform ih h

theorem runs_of_perform {depth : Nat} (h : js.mapM (Job.perform o s (marshalWithin o s depth)) d = some (us, d')) :
    Runs o s d js us d' :=
  runs_of_mapM_perform runs_of_mapM_useAt h

theorem Runs.perform (h : Runs o s d js us d') :
    ∃ least, ∀ depth, least ≤ depth → js.mapM (Job.perform o s (marshalWithin o s depth)) d = some (us, d') := by
  induction h with
  | nil d => exact ⟨0, fun _ _ => rfl⟩
  | leaf hplan _ ih =>
    obtain ⟨least, hrest⟩ := ih
    refine ⟨least, fun depth hdepth => ?_⟩
    rw [List.mapM_cons, Emit.bind_eq (Job.perform_leaf hplan _), Emit.bind_eq (hrest depth hdepth)]
    rfl
  | @inner d d₁ d' j js x wrap u us hplan _ _ ihx ih =>
    obtain ⟨leastx, hx⟩ := ihx
    obtain ⟨least, hrest⟩ := ih
    refine ⟨max (leastx + 1) least, fun depth hdepth => ?_⟩
    obtain ⟨depth, rfl⟩ : ∃ n, depth = n + 1 := ⟨depth - 1, by omega⟩
    have huse : useAt (marshalWithin o s (depth + 1)) x (j.note s d) = some (u, d₁) := by
      have h := hx depth (by omega)
      rw [List.mapM_cons] at h
      obtain ⟨u', d₂, hu, h⟩ := Emit.bind_eq_some h
      cases h
      rw [useAt_succ, hu]
    have hj : j.perform o s (marshalWithin o s (depth + 1)) d = some (wrap u, d₁) := by
      rw [Job.perform_inner hplan]
      exact Emit.map_eq huse wrap
    rw [List.mapM_cons, Emit.bind_eq hj, Emit.bind_eq (hrest (depth + 1) (by omega))]
    rfl
  | @held d d' j js name given t us hplan hclaim _ ih =>
    obtain ⟨least, hrest⟩ := ih
    refine ⟨least, fun depth hdepth => ?_⟩
    have hj : j.perform o s (marshalWithin o s depth) d = some (.plain (.named given), d) := by
      rw [Job.perform_body hplan]
      exact Emit.map_eq (declareBody_eq_some_iff.mpr ⟨given, rfl, .inl ⟨hclaim, rfl⟩⟩) _
    rw [List.mapM_cons, Emit.bind_eq hj, Emit.bind_eq (hrest depth hdepth)]
    rfl
  | @fresh d d₁ d₂ d' j js name given t vs us hplan hclaim _ _ ihbody ih =>
    obtain ⟨leastbody, hbody⟩ := ihbody
    obtain ⟨least, hrest⟩ := ih
    refine ⟨max (leastbody + 1) least, fun depth hdepth => ?_⟩
    obtain ⟨depth, rfl⟩ : ∃ n, depth = n + 1 := ⟨depth - 1, by omega⟩
    have hvs := hbody depth (by omega)
    rw [← mapM_useAt_succ] at hvs
    have hj : j.perform o s (marshalWithin o s (depth + 1)) d =
        some (.plain (.named given), (Draft.leave t d₁ d₂).declare (bodyDecl o given t vs)) := by
      rw [Job.perform_body hplan]
      exact Emit.map_eq (declareBody_eq_some_iff.mpr ⟨given, rfl, .inr ⟨d₁, d₂, vs, hclaim, hvs, rfl⟩⟩) _
    rw [List.mapM_cons, Emit.bind_eq hj, Emit.bind_eq (hrest (depth + 1) (by omega))]
    rfl

theorem Runs.unique (h : Runs o s d js us d₁) (h' : Runs o s d js vs d') : us = vs ∧ d₁ = d' := by
  obtain ⟨least, hleast⟩ := h.perform
  obtain ⟨least', hleast'⟩ := h'.perform
  have hboth := (hleast (max least least') (Nat.le_max_left ..)).symm.trans (hleast' _ (Nat.le_max_right ..))
  exact Prod.mk.inj (Option.some.inj hboth)

namespace Runs

theorem length_eq (h : Runs o s d js us d') : us.length = js.length := by
  induction h with
  | nil d => rfl
  | leaf _ _ ih => exact congrArg Nat.succ ih
  | inner _ _ _ _ ih => exact congrArg Nat.succ ih
  | held _ _ _ ih => exact congrArg Nat.succ ih
  | fresh _ _ _ _ _ ih => exact congrArg Nat.succ ih

theorem append (h : Runs o s d js us d₁) (h' : Runs o s d₁ ks vs d') : Runs o s d (js ++ ks) (us ++ vs) d' := by
  induction h with
  | nil d => exact h'
  | leaf hplan _ ih => exact .leaf hplan (ih h')
  | inner hplan hx _ _ ih => exact .inner hplan hx (ih h')
  | held hplan hclaim _ ih => exact .held hplan hclaim (ih h')
  | fresh hplan hclaim hbody _ _ ih => exact .fresh hplan hclaim hbody (ih h')

theorem of_append (h : Runs o s d (js ++ ks) us d') :
    ∃ us₁ us₂ d₁, us = us₁ ++ us₂ ∧ Runs o s d js us₁ d₁ ∧ Runs o s d₁ ks us₂ d' := by
  induction js generalizing d us with
  | nil => exact ⟨[], us, d, rfl, .nil d, h⟩
  | cons j js ih =>
    cases h with
    | leaf hplan hrest =>
      obtain ⟨us₁, us₂, d₁, rfl, hjs, hks⟩ := ih hrest
      exact ⟨_ :: us₁, us₂, d₁, rfl, .leaf hplan hjs, hks⟩
    | inner hplan hx hrest =>
      obtain ⟨us₁, us₂, d₁, rfl, hjs, hks⟩ := ih hrest
      exact ⟨_ :: us₁, us₂, d₁, rfl, .inner hplan hx hjs, hks⟩
    | held hplan hclaim hrest =>
      obtain ⟨us₁, us₂, d₁, rfl, hjs, hks⟩ := ih hrest
      exact ⟨_ :: us₁, us₂, d₁, rfl, .held hplan hclaim hjs, hks⟩
    | fresh hplan hclaim hbody hrest =>
      obtain ⟨us₁, us₂, d₁, rfl, hjs, hks⟩ := ih hrest
      exact ⟨_ :: us₁, us₂, d₁, rfl, .fresh hplan hclaim hbody hjs, hks⟩

end Runs

theorem noteLength_eq (s : Store) (length : Option ArrayLength) (d : Draft) : noteLength s length d =
    { d with bounds := (noteLength s length d).bounds, diagnostics := (noteLength s length d).diagnostics } := by
  unfold noteLength
  split
  · split <;> rfl
  · rfl

theorem Job.note_eq (s : Store) (j : Job) (d : Draft) :
    j.note s d = { d with bounds := (j.note s d).bounds, diagnostics := (j.note s d).diagnostics } := by
  cases j with
  | declare _ _ => rfl
  | use x => exact noteLength_eq s (x.length? s) d

theorem Job.taken_note (s : Store) (j : Job) (d : Draft) : (j.note s d).taken = d.taken := by
  rw [note_eq]

theorem Job.types_note (s : Store) (j : Job) (d : Draft) : (j.note s d).types = d.types := by
  rw [note_eq]

theorem Job.skipped_note (s : Store) (j : Job) (d : Draft) : (j.note s d).skipped = d.skipped := by
  rw [note_eq]

namespace Draft

variable (given name : String) (t : NativeType) (d before after : Draft)

theorem enter_eq : enter given t d =
    { d with subject := (enter given t d).subject, skipped := (enter given t d).skipped } := by
  cases t <;> rfl

theorem taken_enter : (enter given t d).taken = d.taken := by
  rw [enter_eq]

theorem types_enter : (enter given t d).types = d.types := by
  rw [enter_eq]

theorem bounds_enter : (enter given t d).bounds = d.bounds := by
  rw [enter_eq]

theorem leave_eq : leave t before after = { after with subject := (leave t before after).subject } := by
  cases t <;> rfl

theorem taken_leave : (leave t before after).taken = after.taken := by
  rw [leave_eq]

theorem types_leave : (leave t before after).types = after.types := by
  rw [leave_eq]

theorem bounds_leave : (leave t before after).bounds = after.bounds := by
  rw [leave_eq]

theorem taken_declare_leave {decl : Managed.TypeDecl} :
    ((leave t before after).declare decl).taken = after.taken := by
  rw [declare, taken_leave]

theorem bounds_declare_leave {decl : Managed.TypeDecl} :
    ((leave t before after).declare decl).bounds = after.bounds := by
  rw [declare, bounds_leave]

theorem claim_eq : (claim name t d).2 =
    { d with taken := (claim name t d).2.taken, diagnostics := (claim name t d).2.diagnostics } := by
  unfold claim
  dsimp only
  split <;> rfl

theorem types_claim : (claim name t d).2.types = d.types := by
  rw [claim_eq]

theorem bounds_claim : (claim name t d).2.bounds = d.bounds := by
  rw [claim_eq]

theorem skipped_claim : (claim name t d).2.skipped = d.skipped := by
  rw [claim_eq]

theorem claim_fresh {name given : String} {t : NativeType} {d d₁ : Draft} (h : claim name t d = ((given, true), d₁)) :
    d₁.taken = d.taken.insert given t ∧ given ∉ d.taken ∧ ∃ n, 1 ≤ n ∧ given = offer name n ∧
      ∀ i, 1 ≤ i → i < n → ∃ held, d.taken[offer name i]? = some held ∧ held.same t = false := by
  unfold claim at h
  dsimp only at h
  rcases choose_spec t (exists_free_offer d.taken name) with ⟨hfree, hgiven⟩ | ⟨hfree, -⟩
  · rw [if_pos hfree] at h
    cases h
    exact ⟨rfl, hgiven, _, le_choose d.taken name t 1 _, rfl, fun i hi hlt => choose_passed hi hlt⟩
  · rw [if_neg (by simp [hfree])] at h
    cases h

end Draft

namespace Runs

theorem grows (h : Runs o s d js us d') : d.taken.Grows d'.taken := by
  induction h with
  | nil d => exact .refl _
  | @leaf d d' j _ _ _ _ _ ih => exact j.taken_note s d ▸ ih
  | @inner d d₁ d' j _ _ _ _ _ _ _ _ ihx ih => exact (j.taken_note s d ▸ ihx).trans ih
  | held _ _ _ ih => exact ih
  | @fresh d d₁ d₂ d' j js name given t vs us hplan hclaim _ _ ihbody ih =>
    have hgrows := (Draft.claim_spec name t d).1
    rw [hclaim] at hgrows
    rw [Draft.taken_enter] at ihbody
    rw [Draft.taken_declare_leave] at ih
    exact (hgrows.trans ihbody).trans ih

theorem holds (h : Runs o s d js us d') {name : String} {t : NativeType} (hj : j ∈ js)
    (hplan : j.plan o s = .body name t) : d'.taken.Holds name t := by
  have hclaimed (d : Draft) : (Draft.claim name t d).2.taken.Holds name t := Draft.holds_claim name t d
  induction h with
  | nil d => cases hj
  | leaf hplan' _ ih =>
    rcases List.mem_cons.mp hj with rfl | hj
    · cases hplan.symm.trans hplan'
    · exact ih hj
  | inner hplan' _ _ _ ih =>
    rcases List.mem_cons.mp hj with rfl | hj
    · cases hplan.symm.trans hplan'
    · exact ih hj
  | @held d d' j' js name' given t' us hplan' hclaim hrest ih =>
    rcases List.mem_cons.mp hj with rfl | hj
    · cases hplan.symm.trans hplan'
      have hholds := hclaimed d
      rw [hclaim] at hholds
      exact hholds.grows hrest.grows
    · exact ih hj
  | @fresh d d₁ d₂ d' j' js name' given t' vs us hplan' hclaim hbody hrest _ ih =>
    rcases List.mem_cons.mp hj with rfl | hj
    · cases hplan.symm.trans hplan'
      have hholds := hclaimed d
      rw [hclaim, ← Draft.taken_enter given t d₁] at hholds
      have hgrows := hrest.grows
      rw [Draft.taken_declare_leave] at hgrows
      exact (hholds.grows hbody.grows).grows hgrows
    · exact ih hj

end Runs

end HeaderBinding
