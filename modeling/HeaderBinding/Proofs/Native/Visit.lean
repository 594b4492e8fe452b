import HeaderBinding.Native.Visit
import HeaderBinding.Proofs.Native.Equivalence

namespace HeaderBinding

theorem mapM_congr_of_mem {m : Type → Type} [Monad m] [LawfulMonad m] {α β : Type} {f g : α → m β} {as : List α}
    (h : ∀ a ∈ as, f a = g a) : as.mapM f = as.mapM g := by
  induction as with
  | nil => rfl
  | cons a as ih =>
    obtain ⟨ha, has⟩ := List.forall_mem_cons.mp h
    rw [List.mapM_cons, List.mapM_cons, ha, ih has]

theorem forM_flatMap {m : Type → Type} [Monad m] [LawfulMonad m] {α ρ : Type} {f : ρ → m Unit} {met : α → List ρ}
    {step : α → m Unit} {as : List α} (h : ∀ a ∈ as, step a = (met a).forM f) :
    forM as step = forM (as.flatMap met) f := by
  induction as with
  | nil => rfl
  | cons a as ih =>
    obtain ⟨ha, has⟩ := List.forall_mem_cons.mp h
    simp [ha, ih has]

theorem mapM_forM {m : Type → Type} [Monad m] [LawfulMonad m] {α ρ : Type} (f : ρ → m Unit) (met : α → List ρ)
    (as : List α) :
    (as.mapM fun a => (fun _ => a) <$> forM (met a) f) = (fun _ => as) <$> forM (as.flatMap met) f := by
  induction as with
  | nil => simp
  | cons a as ih => simp [List.mapM_cons, ih]

def Refills {m : Type → Type} [Monad m] {ρ α β : Type} (f : ρ → m ρ) (parts : α → β × List ρ) (x : m α) (a : α) :
    Prop :=
  parts <$> x = (fun rs => ((parts a).1, rs)) <$> (parts a).2.mapM f

def partsOfList {ρ α β : Type} (parts : α → β × List ρ) (as : List α) : List β × List ρ :=
  (as.map fun a => (parts a).1, as.flatMap fun a => (parts a).2)

namespace Refills

variable {m : Type → Type} [Monad m] [LawfulMonad m] {ρ α β α' β' γ γ' : Type} {f : ρ → m ρ}
  {parts : α → β × List ρ} {parts' : α' → β' × List ρ} {parts'' : γ → γ' × List ρ} {x : m α} {y : m α'} {a : α}
  {b : α'}

theorem pure (h : (parts a).2 = []) : Refills f parts (Pure.pure a) a := by
  have hparts : ((parts a).1, []) = parts a := by rw [← h]
  simp [Refills, h, hparts]

theorem one {g : ρ → α} {c : β} (hg : ∀ r, parts (g r) = (c, [r])) (r : ρ) :
    Refills f parts (do let r ← f r; return g r) (g r) := by
  simp [Refills, hg]

theorem map (hx : Refills f parts x a) {g : α → α'} {k : β → β'}
    (hg : ∀ a, parts' (g a) = (k (parts a).1, (parts a).2)) :
    Refills f parts' (do let a ← x; return g a) (g a) := by
  calc parts' <$> (do let a ← x; return g a)
    _ = (fun p => (k p.1, p.2)) <$> parts <$> x := by simp [hg]
    _ = (fun rs => ((parts' (g a)).1, rs)) <$> (parts' (g a)).2.mapM f := by
      rw [hx, hg]
      simp

theorem seq (hx : Refills f parts x a) (hy : Refills f parts' y b) {g : α → α' → γ} {k : β → β' → γ'}
    (hg : ∀ a b, parts'' (g a b) = (k (parts a).1 (parts' b).1, (parts a).2 ++ (parts' b).2)) :
    Refills f parts'' (do let a ← x; let b ← y; return g a b) (g a b) := by
  calc parts'' <$> (do let a ← x; let b ← y; return g a b)
    _ = (do let p ← parts <$> x; let q ← parts' <$> y; return (k p.1 q.1, p.2 ++ q.2)) := by simp [hg]
    _ = (fun rs => ((parts'' (g a b)).1, rs)) <$> (parts'' (g a b)).2.mapM f := by
      rw [hx, hy, hg]
      simp

theorem mapM {step : α → m α} (as : List α) (h : ∀ a ∈ as, Refills f parts (step a) a) :
    Refills f (partsOfList parts) (as.mapM step) as := by
  induction as with
  | nil => exact pure rfl
  | cons a as ih =>
    obtain ⟨ha, has⟩ := List.forall_mem_cons.mp h
    rw [List.mapM_cons]
    exact ha.seq (ih has) (k := List.cons) fun _ _ => rfl

end Refills

namespace NativeType

section

variable {m : Type → Type} [Monad m] [LawfulMonad m] (node : NativeType → m Unit) (reference : Reference → m Reference)
  (enumeration : Enumeration → m Enumeration)

theorem traverseMembers_eq_mapM (ms : List (Member NativeType)) :
    traverseMembers node reference enumeration ms =
      ms.mapM fun x => return { x with type := ← x.type.traverse node reference enumeration } := by
  induction ms with
  | nil => rfl
  | cons x rest ih => simp [traverseMembers, List.mapM_cons, ih]

theorem traverseParams_eq_mapM (ps : List (Parameter NativeType)) :
    traverseParams node reference enumeration ps =
      ps.mapM fun x => return { x with type := ← x.type.traverse node reference enumeration } := by
  induction ps with
  | nil => rfl
  | cons x rest ih => simp [traverseParams, List.mapM_cons, ih]

theorem traverse_record (kind : RecordKind) (body : Record NativeType) :
    (record kind body).traverse node reference enumeration = (do
      node (record kind body)
      let members ← body.members.mapM fun x =>
        return { x with type := ← x.type.traverse node reference enumeration }
      return record kind ⟨body.name, members⟩) := by
  rw [← traverseMembers_eq_mapM]
  rfl

theorem traverse_function (s : Signature NativeType) :
    (function s).traverse node reference enumeration = (do
      node (function s)
      let returns ← s.returns.traverse node reference enumeration
      let params ← s.params.mapM fun x =>
        return { x with type := ← x.type.traverse node reference enumeration }
      return function { s with returns := returns, params := params }) := by
  rw [← traverseParams_eq_mapM]
  rfl

theorem visitM_eq (t : NativeType) : t.visitM node = (do node t; t.children.forM (visitM node)) := by
  have hchildren := List.forM_map (l := t.children.attach) (g := Subtype.val) (f := visitM node)
  rw [List.attach_map_subtype_val] at hchildren
  rw [visitM]
  exact congrArg (node t >>= fun _ => ·) hchildren.symm

theorem visitM_eq_forM (t : NativeType) : t.visitM node = t.visit.forM node := by
  induction t using children_induction with
  | h t ih =>
    rw [visitM_eq, visit_eq]
    simp [forM_flatMap ih]

theorem traverse_pure (t : NativeType) :
    t.traverse node pure pure = (do t.visit.forM node; return t) := by
  induction t using children_induction with
  | h t ih =>
    rw [visit_eq]
    cases t with
    | record kind body =>
      simp only [children, List.forall_mem_map] at ih
      have hmembers := mapM_forM node (fun x : Member NativeType => x.type.visit) body.members
      rw [traverse_record, mapM_congr_of_mem fun x hx => by rw [ih x hx]]
      simp [children, List.flatMap_map, hmembers]
    | function s =>
      simp only [children, List.forall_mem_cons, List.forall_mem_map] at ih
      have hparams := mapM_forM node (fun x : Parameter NativeType => x.type.visit) s.params
      rw [traverse_function, mapM_congr_of_mem fun x hx => by rw [ih.2 x hx]]
      simp [children, List.flatMap_map, ih.1, hparams]
    | _ => simp_all [children, traverse]

end

theorem references_eq_filterMap (t : NativeType) : t.references = t.visit.filterMap reference? := by
  induction t using children_induction with
  | h t ih =>
    rw [references_eq, visit_eq, List.filterMap_cons, List.filterMap_flatMap, List.flatMap_congr ih]
    cases t.reference? <;> rfl

def skeleton (t : NativeType) : NativeType :=
  t.rewrite (fun _ => .unlinked "" .empty) id

def split (t : NativeType) : NativeType × List Reference :=
  (t.skeleton, t.references)

theorem split_injective : Function.Injective split := by
  intro t u h
  obtain ⟨hskeleton, hreferences⟩ := Prod.mk.inj h
  have hblank : ∀ x : NativeType, Related (fun _ _ => True) Eq x x.skeleton :=
    related_rewrite (fun _ => trivial) fun _ => rfl
  have hback : Related (fun _ _ => True) Eq t.skeleton u :=
    hskeleton ▸ (hblank u).symm (fun _ _ _ => trivial) fun _ _ => Eq.symm
  have hsame : Related (fun _ _ => True) Eq t u :=
    (hblank t).trans hback (fun _ _ _ _ _ => trivial) fun _ _ _ => Eq.trans
  rw [← List.forall₂_eq_eq_eq] at hreferences
  exact (hsame.of_leaves hreferences hsame.enumerations).eq

end NativeType

def Member.split (x : Member NativeType) : Member NativeType × List Reference :=
  ({ x with type := x.type.skeleton }, x.type.references)

def Parameter.split (x : Parameter NativeType) : Parameter NativeType × List Reference :=
  ({ x with type := x.type.skeleton }, x.type.references)

section

variable {m : Type → Type} [Monad m] [LawfulMonad m] {f : Reference → m Reference} {step : NativeType → m NativeType}

theorem refills_members {ms : List (Member NativeType)}
    (h : ∀ x ∈ ms, Refills f NativeType.split (step x.type) x.type) :
    Refills f (partsOfList Member.split) (ms.mapM fun x => return { x with type := ← step x.type }) ms :=
  .mapM ms fun x hx => (h x hx).map (k := fun t => { x with type := t }) fun _ => rfl

theorem refills_params {ps : List (Parameter NativeType)}
    (h : ∀ x ∈ ps, Refills f NativeType.split (step x.type) x.type) :
    Refills f (partsOfList Parameter.split) (ps.mapM fun x => return { x with type := ← step x.type }) ps :=
  .mapM ps fun x hx => (h x hx).map (k := fun t => { x with type := t }) fun _ => rfl

theorem NativeType.refills_mapReferencesM (t : NativeType) : Refills f split (t.mapReferencesM f) t := by
  induction t using children_induction with
  | h t ih =>
    unfold mapReferencesM at ih ⊢
    cases t with
    | builtin b =>
      simp only [traverse, pure_bind]
      exact .pure (references_builtin b)
    | enumeration e =>
      simp only [traverse, pure_bind]
      exact .pure (references_enumeration e)
    | named r =>
      simp only [traverse, pure_bind]
      exact .one (c := .named (.unlinked "" .empty)) (fun r => by simp [split, skeleton]) r
    | pointer pointee =>
      simp only [traverse, pure_bind]
      exact (ih pointee (List.mem_singleton_self _)).map (k := .pointer) fun t => by simp [split, skeleton]
    | array element rank length =>
      simp only [traverse, pure_bind]
      exact (ih element (List.mem_singleton_self _)).map (k := (.array · rank length)) fun t => by
        simp [split, skeleton]
    | synonym name target =>
      simp only [traverse, pure_bind]
      exact (ih target (List.mem_singleton_self _)).map (k := .synonym name) fun t => by simp [split, skeleton]
    | record kind body =>
      simp only [children, List.forall_mem_map] at ih
      simp only [traverse_record, pure_bind]
      exact (refills_members ih).map (g := fun ms => record kind ⟨body.name, ms⟩)
        (k := fun ms => record kind ⟨body.name, ms⟩) fun ms => by
          simp [split, skeleton, partsOfList, Member.split]
    | function s =>
      simp only [children, List.forall_mem_cons, List.forall_mem_map] at ih
      simp only [traverse_function, pure_bind]
      exact ih.1.seq (refills_params ih.2)
        (g := fun t ps => function { s with returns := t, params := ps })
        (k := fun t ps => function { s with returns := t, params := ps }) fun t ps => by
          simp [split, skeleton, partsOfList, Parameter.split]

end

namespace NativeType

section

variable {σ : Type} (node : NativeType → StateT σ Option Unit) (reference : Reference → StateT σ Option Reference)
  (enumeration : Enumeration → StateT σ Option Enumeration)

theorem visitMut_eq_traverse {step : NativeType → StateT σ Option NativeType}
    (hnamed : ∀ r, step (.named r) = (do node (.named r); return .named (← reference r)))
    (henumeration : ∀ e, step (.enumeration e) = (do node (.enumeration e); return .enumeration (← enumeration e)))
    (hstep : ∀ t, t.reference? = none → t.enumeration? = none → step t = (do node t; return t)) (t : NativeType) :
    t.visitMut step = t.traverse node reference enumeration := by
  induction t using children_induction with
  | h t ih =>
    rw [visitMut]
    cases t with
    | named r => simp [hnamed, traverse]
    | enumeration e => simp [henumeration, traverse]
    | record kind body =>
      simp only [children, List.forall_mem_map] at ih
      rw [hstep _ rfl rfl, traverse_record, mapM_congr_of_mem fun x hx => by rw [← ih x hx]]
      simp
    | function s =>
      simp only [children, List.forall_mem_cons, List.forall_mem_map] at ih
      rw [hstep _ rfl rfl, traverse_function, mapM_congr_of_mem fun x hx => by rw [← ih.2 x hx]]
      simp [ih.1]
    | builtin b => simp [traverse, hstep (.builtin b) rfl rfl]
    | pointer pointee => simp [traverse, hstep (.pointer pointee) rfl rfl, ih pointee (List.mem_singleton_self _)]
    | array element rank length =>
      simp [traverse, hstep (.array element rank length) rfl rfl, ih element (List.mem_singleton_self _)]
    | synonym name target =>
      simp [traverse, hstep (.synonym name target) rfl rfl, ih target (List.mem_singleton_self _)]

theorem visitMut_unchanged (t : NativeType) :
    t.visitMut (fun x => do node x; return x) = (do t.visit.forM node; return t) := by
  rw [← traverse_pure]
  exact visitMut_eq_traverse node pure pure (by simp) (by simp) (fun _ _ _ => rfl) t

theorem visitReferences_eq (t : NativeType) : t.visitReferences reference = t.mapReferencesM reference := by
  refine visitMut_eq_traverse _ reference pure (fun _ => rfl) (fun _ => rfl) (fun x hx _ => ?_) t
  cases x <;> first
    | rfl
    | cases hx

end

end NativeType

end HeaderBinding
