import HeaderBinding.Proofs.Resolve.Rearranged
import HeaderBinding.Proofs.Store.Snapshot
import HeaderBinding.Proofs.Store.Uniform

namespace HeaderBinding

open Declaration (name)

namespace Store

variable {s : Store}

theorem relink_restored {α : Type} [DeclarationData α] [LawfulData α] (T : String → Option Target) (s : Store) (a : α) :
    relink T (s.restored a) = Declaration.mapRoots (fun x => (x.hoist s).rewrite (·.linkedAnew T) id) a := by
  have hrewrite : ∀ x : NativeType, (x.hoist s).unlinked.rewrite (·.linkedBy T) id =
      (x.hoist s).rewrite (·.linkedAnew T) id := by
    intro x
    rw [NativeType.unlinked, NativeType.rewrite_rewrite]
    simp only [Reference.linkedBy_unlink]
    rfl
  rw [relink, restored, LawfulData.mapRoots_mapRoots]
  exact congrArg (Declaration.mapRoots · a) (funext hrewrite)

theorem restoredSet_eq (h : s.unwritable = []) :
    s.restoredSet.typedefs = s.typedefs.toList.map s.restored ∧
      s.restoredSet.definitions = s.definitions.toList.map s.restored ∧
      s.restoredSet.constants = s.constants.toList.map s.restored ∧
      s.restoredSet.procedures = s.procedures.toList.map s.restored := by
  have hall : ∀ {α : Type} [DeclarationData α] (as : List α),
      (as.filter (!s.isWritable ·)).map Declaration.key = [] → as.filter s.isWritable = as := by
    intro α _ as hnone
    rw [List.filter_eq_self]
    intro a ha
    have hmem : a ∉ as.filter (!s.isWritable ·) := by
      rw [List.map_eq_nil_iff.mp hnone]
      exact List.not_mem_nil
    simpa [ha] using hmem
  simp only [unwritable, List.append_eq_nil_iff] at h
  obtain ⟨⟨⟨ht, hd⟩, hc⟩, hp⟩ := h
  exact ⟨congrArg _ (hall _ ht), congrArg _ (hall _ hd), congrArg _ (hall _ hc), congrArg _ (hall _ hp)⟩

theorem pending_reloaded (s : Store) : s.reloaded.pending = 0 :=
  (sameEntries_setFastLoad (.refl _) false).pending_eq.trans (pending_commit _)

theorem WellNamed.deserialize_eq (hs : s.WellNamed) (hread : s.snapshot.ReadsBack) (hfinite : s.unwritable = []) :
    deserialize s.serialize = .ok (s.reloaded, []) := by
  obtain ⟨ds, hload, hreported⟩ := hs.deserialize_reloaded hread
  rw [hfinite, List.map_nil, List.map_eq_nil_iff] at hreported
  exact hreported ▸ hload

theorem WellNamed.images_reloaded (hs : s.WellNamed) (hindexed : s.Indexed) (hfinite : s.unwritable = []) :
    s.Images s.reloaded.link.1 := by
  obtain ⟨hsound, ht, hd, hc, hp, -⟩ := hs.commit_restoredSet
  obtain ⟨ht', hd', hc', hp'⟩ := restoredSet_eq hfinite
  have htarget : s.reloaded.targetOf? = s.targetOf? := by
    refine targetOf?_of_toList_eq_map (f := s.restored) (g := s.restored) s.name_restored s.name_restored hindexed
      hsound.toIndexed (ht.trans ht') (hd.trans hd')
  constructor
  · exact hindexed
  · exact hsound.toIndexed.link
  · rw [link_eq, Table.toList_map, ht, ht', htarget, List.map_map]
    exact List.map_congr_left fun a _ => relink_restored s.targetOf? s a
  · rw [link_eq, Table.toList_map, hd, hd', htarget, List.map_map]
    exact List.map_congr_left fun a _ => relink_restored s.targetOf? s a
  · rw [link_eq, hc, hc']
    exact List.map_id'' (fun a => LawfulDeclaration.mapRoots_eq_self fun _ hx => absurd hx List.not_mem_nil) _
  · rw [link_eq, Table.toList_map, hp, hp', htarget, List.map_map]
    exact List.map_congr_left fun a _ => relink_restored s.targetOf? s a

end Store

end HeaderBinding
