import HeaderBinding.Proofs.Declaration.Data
import HeaderBinding.Proofs.Native.Collapse
import HeaderBinding.Store.Snapshot

namespace HeaderBinding

namespace Store

def holds (s : Store) (x : NativeType) : Bool :=
  x.inlineKey?.any fun k => s.contains k && !k.name.isEmpty

variable {s : Store} {x : NativeType}

theorem exists_inlineKey_of_holds (h : s.holds x = true) :
    ∃ k, x.inlineKey? = some k ∧ s.contains k = true ∧ k.name ≠ "" := by
  obtain ⟨k, hk, hheld⟩ := (Option.any_eq_true _ _).mp h
  exact ⟨k, hk, by simpa using hheld⟩

theorem holds_of_writesOut (s : Store) {k : Key} (hx : x.WritesOut k) (hk : s.contains k = true) :
    s.holds x = true := by
  obtain ⟨hx, hname⟩ := hx
  exact (Option.any_eq_true _ _).mpr ⟨k, hx, by simpa using ⟨hk, hname⟩⟩

end Store

namespace NativeType

variable {s : Store}

theorem hoistMembers_eq_map (s : Store) (ms : List (Member NativeType)) :
    hoistMembers s ms = ms.map fun m => { m with type := m.type.hoist s } := by
  induction ms with
  | nil => rfl
  | cons m rest ih => rw [hoistMembers, ih, List.map_cons]

theorem hoistParams_eq_map (s : Store) (ps : List (Parameter NativeType)) :
    hoistParams s ps = ps.map fun p => { p with type := p.type.hoist s } := by
  induction ps with
  | nil => rfl
  | cons p rest ih => rw [hoistParams, ih, List.map_cons]

theorem hoist_of_holds {x : NativeType} {k : Key} (hk : x.inlineKey? = some k) (h : s.holds x = true) :
    x.hoist s = .named (.unlinked k.name .empty) := by
  cases x with
  | synonym name target =>
    cases hk
    exact if_pos h
  | record kind body =>
    cases hk
    exact if_pos h
  | enumeration e =>
    cases hk
    exact if_pos h
  | _ => cases hk

theorem hoist_of_not_holds {x : NativeType} (h : s.holds x = false) :
    x.hoist s = x.mapChildren (hoist s) := by
  have hnot : ¬s.holds x = true := by simp [h]
  cases x with
  | synonym name target => exact if_neg hnot
  | record kind body =>
    rw [hoist, hoistMembers_eq_map]
    exact if_neg hnot
  | enumeration e => exact if_neg hnot
  | function f =>
    rw [hoist, hoistParams_eq_map]
    rfl
  | _ => rfl

theorem collapsing_hoist (s : Store) : Collapsing (fun k => s.contains k = true) id (hoist s) where
  named _ := rfl
  collapsed {x k} hx hk := hoist_of_holds hx.1 (s.holds_of_writesOut hx hk)
  kept {x} _ hx := by
    refine hoist_of_not_holds (Bool.eq_false_iff.mpr fun hholds => ?_)
    obtain ⟨k, hk, hheld, hname⟩ := Store.exists_inlineKey_of_holds hholds
    exact hx k ⟨hk, hname⟩ hheld

theorem shape_hoist (s : Store) (t : NativeType) : (t.hoist s).shape = t.shape :=
  (collapsing_hoist s).absorbs collapsing_shape (fun _ _ => trivial) (fun _ => rfl) (fun _ => rfl) t

theorem hoist_shape (s : Store) (t : NativeType) : t.shape.hoist s = t.shape :=
  (collapsing_hoist s).eq_of_collapsesTo (.refl t.shape) ((collapsing_shape.freeOf t).mono fun _ _ => trivial)

theorem hoist_outcome (s : Store) (t : NativeType) :
    ((t.hoist s).shape = t.shape ∧ t.shape.hoist s = t.shape) ∧
      (t.shape.shape = t.shape ∧ t.shape.IsUnlinked ∧ t.shape.FreeOf fun _ => True) ∧
      ((t.hoist s).hoist s = t.hoist s ∧ ∀ u, t.hoist s = u ↔
        t.CollapsesTo (fun k => s.contains k = true) id u ∧ u.FreeOf fun k => s.contains k = true) ∧
      (∀ d : Typedef, Declaration.sameContent d (Declaration.mapRoots (hoist s) d) = true) ∧
      (∀ d : Definition, Declaration.sameContent d (Declaration.mapRoots (hoist s) d) = true) ∧
      (∀ d : Constant, Declaration.sameContent d (Declaration.mapRoots (hoist s) d) = true) ∧
      ∀ d : Procedure, Declaration.sameContent d (Declaration.mapRoots (hoist s) d) = true := by
  have hcontent {α : Type} [DeclarationData α] [LawfulData α] (d : α) :
      Declaration.sameContent d (Declaration.mapRoots (hoist s) d) = true :=
    LawfulData.sameContent_mapRoots (fun t => t.shape_hoist s) d
  have hcollapsing := collapsing_hoist s
  refine ⟨⟨t.shape_hoist s, t.hoist_shape s⟩, ⟨?_, t.isUnlinked_shape, collapsing_shape.freeOf t⟩, ⟨?_, ?_⟩,
    hcontent, hcontent, hcontent, hcontent⟩
  · exact collapsing_shape.idempotent (fun _ => rfl) (fun _ => rfl) t
  · exact hcollapsing.idempotent (fun _ => rfl) (fun _ => rfl) t
  · exact fun u => hcollapsing.eq_iff

theorem shape_unlinked (t : NativeType) : t.unlinked.shape = t.shape :=
  shape_rewrite (g := Reference.unlink) (fun _ => rfl) t

def Named (t : NativeType) : Prop :=
  ∀ r ∈ t.references, r.name ≠ ""

theorem Named.unlinked {t : NativeType} (h : t.Named) : t.unlinked.Named := by
  intro r hr
  rw [NativeType.unlinked, references_rewrite] at hr
  obtain ⟨r', hr', rfl⟩ := List.mem_map.mp hr
  exact h r' hr'

theorem Named.hoist (s : Store) {t : NativeType} (h : t.Named) : (t.hoist s).Named := by
  intro r hr
  rcases (collapsing_hoist s).mem_references hr with ⟨r, hr, rfl⟩ | ⟨name, hname, rfl⟩
  · exact h r hr
  · exact hname

end NativeType

end HeaderBinding
