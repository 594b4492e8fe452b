import HeaderBinding.Proofs.Declaration.Data
import HeaderBinding.Proofs.Native.Visit

namespace HeaderBinding

namespace Declaration

variable {α : Type} [Declaration α]

def split (a : α) : α × List Reference :=
  (mapRoots NativeType.skeleton a, references a)

end Declaration

open Declaration (mapRootsM split)

section

variable {m : Type → Type} [Monad m] [LawfulMonad m] {f : Reference → m Reference} {step : NativeType → m NativeType}
  (hstep : ∀ t, Refills f NativeType.split (step t) t)

include hstep

theorem Typedef.refills_mapRootsM (d : Typedef) : Refills f split (mapRootsM step d) d :=
  (hstep d.target).map (g := fun t => { d with target := t }) (k := fun t => { d with target := t }) fun t => by
    simp [split, NativeType.split, Declaration.references, Declaration.roots, mapRoots_eq]

theorem Definition.refills_mapRootsM (d : Definition) : Refills f split (mapRootsM step d) d := by
  cases d with
  | record kind body =>
    exact (refills_members fun x _ => hstep x.type).map (g := fun ms => record kind ⟨body.name, ms⟩)
      (k := fun ms => record kind ⟨body.name, ms⟩) fun ms => by
        simp [split, Declaration.references, Declaration.roots, memberTypes, mapRoots_record, partsOfList,
          Member.split, List.flatMap_map]
  | enumeration e => exact .pure rfl

theorem Procedure.refills_mapRootsM (p : Procedure) : Refills f split (mapRootsM step p) p :=
  (hstep p.returns).seq (refills_params fun x _ => hstep x.type)
    (g := fun t ps => { p with returns := t, params := ps }) (k := fun t ps => { p with returns := t, params := ps })
    fun t ps => by
      simp [split, NativeType.split, Declaration.references, Declaration.roots, mapRoots_eq, partsOfList,
        Parameter.split, List.flatMap_map]

end

theorem Constant.refills_mapRootsM {m : Type → Type} [Monad m] [LawfulMonad m] (f : Reference → m Reference)
    (step : NativeType → m NativeType) (d : Constant) : Refills f split (mapRootsM step d) d :=
  .pure rfl

theorem walks_agree {σ : Type} (node : NativeType → StateT σ Option Unit)
    (f : Reference → StateT σ Option Reference) (t : NativeType) :
    (t.visit = t :: t.children.flatMap NativeType.visit ∧ t.references = t.visit.filterMap NativeType.reference?) ∧
      (t.visitM node = t.visit.forM node ∧
        t.visitMut (fun x => do node x; return x) = (do t.visit.forM node; return t)) ∧
      (t.visitReferences f = t.mapReferencesM f ∧ Refills f NativeType.split (t.visitReferences f) t ∧
        Function.Injective NativeType.split) ∧
      (t.mapChildren id = t ∧ ∀ g, (t.mapChildren g).children = t.children.map g) ∧
      (∀ d : Typedef, Refills f split (Declaration.mapReferencesM f d) d) ∧
      (∀ d : Definition, Refills f split (Declaration.mapReferencesM f d) d) ∧
      (∀ d : Constant, Refills f split (Declaration.mapReferencesM f d) d) ∧
      ∀ p : Procedure, Refills f split (Declaration.mapReferencesM f p) p := by
  have hrefills : ∀ x : NativeType, Refills f NativeType.split (x.mapReferencesM f) x := fun x =>
    x.refills_mapReferencesM
  refine ⟨⟨t.visit_eq, t.references_eq_filterMap⟩, ⟨t.visitM_eq_forM node, t.visitMut_unchanged node⟩,
    ⟨t.visitReferences_eq f, ?_, NativeType.split_injective⟩,
    ⟨t.mapChildren_id, fun g => t.children_mapChildren g⟩, ?_, ?_, ?_, ?_⟩
  · rw [t.visitReferences_eq]
    exact hrefills t
  · exact Typedef.refills_mapRootsM hrefills
  · exact Definition.refills_mapRootsM hrefills
  · exact Constant.refills_mapRootsM f _
  · exact Procedure.refills_mapRootsM hrefills

end HeaderBinding
