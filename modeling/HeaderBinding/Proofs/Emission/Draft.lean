import HeaderBinding.Emission.Draft
import Mathlib.Data.List.Nodup
import Mathlib.Data.List.Perm.Subperm
import Std.Data.String.ToNat

namespace HeaderBinding.Draft

variable {taken : Taken} {name : String} {n tries : Nat}

theorem offer_injective {m n : Nat} (hm : 1 ≤ m) (hn : 1 ≤ n) (h : offer name m = offer name n) :
    m = n := by
  have hlonger : ∀ k : Nat, name ≠ name ++ "_" ++ toString k := by
    intro k heq
    have hlength := congrArg String.length heq
    simp only [String.length_append] at hlength
    have hunderscore : "_".length = 1 := rfl
    omega
  unfold offer at h
  split at h
  · split at h
    · omega
    · exact absurd h (hlonger n)
  · split at h
    · exact absurd h.symm (hlonger m)
    · exact Nat.repr_injective (String.append_right_inj _ |>.mp h)

theorem choose_spec (body : NativeType) (h : ∃ k, n ≤ k ∧ k < n + tries ∧ offer name k ∉ taken) :
    (choose taken name body n tries).2 = true ∧
        offer name (choose taken name body n tries).1 ∉ taken ∨
      (choose taken name body n tries).2 = false ∧ ∃ held,
        taken[offer name (choose taken name body n tries).1]? = some held ∧ held.same body = true := by
  induction tries generalizing n with
  | zero =>
    obtain ⟨k, hn, hk, -⟩ := h
    omega
  | succ tries ih =>
    rw [choose]
    cases hoffer : taken[offer name n]? with
    | none =>
      refine .inl ⟨rfl, ?_⟩
      rw [Std.HashMap.mem_iff_isSome_getElem?, hoffer]
      nofun
    | some held =>
      dsimp only
      by_cases hsame : held.same body = true
      · rw [if_pos hsame]
        exact .inr ⟨rfl, held, hoffer, hsame⟩
      · rw [if_neg hsame]
        refine ih ?_
        obtain ⟨k, hn, hk, hfree⟩ := h
        have hne : k ≠ n := by
          rintro rfl
          rw [Std.HashMap.mem_iff_isSome_getElem?, hoffer] at hfree
          exact hfree rfl
        exact ⟨k, by omega, by omega, hfree⟩

theorem exists_free_offer (taken : Taken) (name : String) :
    ∃ k, 1 ≤ k ∧ k < 1 + (taken.size + 1) ∧ offer name k ∉ taken := by
  apply Classical.byContradiction
  intro hall
  simp only [not_exists, not_and, Classical.not_not] at hall
  let offers := (List.range' 1 (taken.size + 1)).map (offer name)
  have hnodup : offers.Nodup := by
    refine List.Nodup.map_on (fun j hj k hk heq => ?_) List.nodup_range'
    exact offer_injective (List.mem_range'_1.mp hj).1 (List.mem_range'_1.mp hk).1 heq
  have hsubset : offers ⊆ taken.keys := by
    intro offered hmem
    obtain ⟨k, hk, rfl⟩ := List.mem_map.mp hmem
    obtain ⟨hlow, hhigh⟩ := List.mem_range'_1.mp hk
    exact Std.HashMap.mem_keys.mpr (hall k hlow hhigh)
  have hlength := (List.subperm_of_subset hnodup hsubset).length_le
  simp only [offers, List.length_map, List.length_range', Std.HashMap.length_keys] at hlength
  omega

theorem claim_cases (name : String) (body : NativeType) (d : Draft) :
    (∃ given diagnostics, given ∉ d.taken ∧ claim name body d =
      ((given, true), { d with taken := d.taken.insert given body, diagnostics := diagnostics })) ∨
    ∃ given held, d.taken[given]? = some held ∧ held.same body = true ∧
      claim name body d = ((given, false), d) := by
  unfold claim
  rcases choose_spec body (exists_free_offer d.taken name) with
    ⟨hfree, hgiven⟩ | ⟨hfree, held, hheld, hsame⟩
  · left
    dsimp only
    rw [if_pos hfree]
    exact ⟨_, _, hgiven, rfl⟩
  · right
    dsimp only
    rw [if_neg (by simp [hfree])]
    exact ⟨_, held, hheld, hsame, rfl⟩

theorem claim_empty (name : String) (body : NativeType) :
    claim name body .empty = ((name, true), ⟨#[], (∅ : Taken).insert name body, ∅, none, [], []⟩) := by
  simp [claim, choose, empty, offer]

end HeaderBinding.Draft
