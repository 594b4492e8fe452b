import HeaderBinding.Proofs.Emission.Mirror
import HeaderBinding.Proofs.Graph.Way

namespace HeaderBinding

open Managed (TypeDecl)

variable {o : EmitOptions} {s : Store} {e : Emission}

theorem Taken.apart_id (taken : Taken) : taken.Apart id := by
  intro name i j held body _ _ _ _ hsame
  rwa [NativeType.mapChildren_id, NativeType.mapChildren_id] at hsame

theorem Declaration.mapRoots_id {α : Type} [Declaration α] [LawfulDeclaration α] (a : α) : mapRoots id a = a :=
  LawfulDeclaration.mapRoots_eq_self fun _ _ => rfl

namespace Store

theorem canonical_mirrors_self (s : Store) (x : NativeType) :
    (x.canonical s).Mirrors id (fun _ => True) s (x.canonical s) := by
  cases hdenoted : (x.canonical s).denoted with
  | builtin b => exact .builtin b hdenoted hdenoted rfl
  | definition d =>
    refine .definition d ((leads_canonicalFrom s .nothing x).mem_definitions hdenoted) (.inl hdenoted) ?_
    rw [hdenoted, Declaration.mapRoots_id]
  | structural y =>
    refine .structural y hdenoted ?_ rfl fun _ _ => trivial
    rw [hdenoted, y.mapChildren_id]
  | unresolved name => exact .unknown (by rw [hdenoted]; rfl) (by rw [hdenoted]; rfl)
  | cycle name => exact .unknown (by rw [hdenoted]; rfl) (by rw [hdenoted]; rfl)

theorem mirrors_self (s : Store) : s.Mirrors id (fun _ => True) s where
  typedefs := (List.map_id'' (f := Declaration.mapRoots id) Declaration.mapRoots_id _).symm
  definitions := (List.map_id'' (f := Declaration.mapRoots id) Declaration.mapRoots_id _).symm
  constants := rfl
  procedures := (List.map_id'' (f := Declaration.mapRoots id) Declaration.mapRoots_id _).symm
  typedef_covered _ _ _ _ := trivial
  definition_covered _ _ _ _ := trivial
  procedure_covered _ _ _ _ := trivial
  boundValue?_eq _ := rfl
  canonical x _ := s.canonical_mirrors_self x
  same_image x y h := by rwa [x.mapChildren_id, y.mapChildren_id]

theorem exists_run_of_emitWithin {depth : Nat} (h : s.emitWithin depth o = some e) :
    ∃ classes d, (emitStore o s (marshalWithin o s depth)).run .empty = some (classes, d) := by
  unfold emitWithin at h
  obtain ⟨⟨classes, d⟩, hrun, -⟩ := Option.bind_eq_some_iff.mp h
  exact ⟨classes, d, hrun⟩

theorem emitWithin_of_le {depth depth' : Nat} (hdepth : depth ≤ depth') (h : s.emitWithin depth o = some e) :
    s.emitWithin depth' o = some e := by
  obtain ⟨classes, d, hrun⟩ := exists_run_of_emitWithin h
  rw [emitWithin_of_mirrors s.mirrors_self hdepth hrun d.taken.apart_id, h]

theorem emitFrom_eq_some {depth : Nat} (h : s.emitFrom o depth = some e) : ∃ depth, s.emitWithin depth o = some e := by
  refine emitFrom.partial_correctness s o (fun _ e => ∃ depth, s.emitWithin depth o = some e) ?_ depth e h
  intro emitFrom ih depth e h
  cases hwithin : s.emitWithin depth o with
  | some e' =>
    rw [hwithin] at h
    exact ⟨depth, hwithin.trans h⟩
  | none =>
    rw [hwithin] at h
    exact ih (2 * depth) e h

theorem emitFrom_of_emitWithin {depth : Nat} (h : s.emitWithin depth o = some e) {start : Nat} (hstart : 0 < start) :
    s.emitFrom o start = some e := by
  induction hmissing : depth - start using Nat.strongRecOn generalizing start with
  | ind missing ih =>
    rw [emitFrom]
    cases hwithin : s.emitWithin start o with
    | some e' =>
      have hdeepest := emitWithin_of_le (Nat.le_max_left depth start) h
      rw [emitWithin_of_le (Nat.le_max_right depth start) hwithin] at hdeepest
      exact hdeepest
    | none =>
      have hlt : start < depth := by
        refine Nat.lt_of_not_le fun hle => ?_
        rw [emitWithin_of_le hle h] at hwithin
        cases hwithin
      exact ih (depth - 2 * start) (by omega) (by omega) rfl

theorem depthBound_pos (s : Store) : 0 < s.depthBound := by
  have h : 0 < s.nodeCount + 3 := Nat.succ_pos _
  exact Nat.mul_pos (Nat.mul_pos h h) h

theorem emit?_eq_some_iff : s.emit? o = some e ↔ ∃ depth, s.emitWithin depth o = some e := by
  constructor
  · exact emitFrom_eq_some
  · rintro ⟨depth, h⟩
    exact emitFrom_of_emitWithin h s.depthBound_pos

end Store

end HeaderBinding
