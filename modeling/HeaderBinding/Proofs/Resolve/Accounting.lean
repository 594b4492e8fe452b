import HeaderBinding.Proofs.Resolve.Valuation

namespace HeaderBinding.Store

variable {s t : Store}

structure Names (d : Diagnostic) (x : Key × String) : Prop where
  severity_eq : d.severity = .warning
  subject_eq : d.subject = some x.1
  message_eq : ∃ rest, d.message = "'" ++ x.2 ++ "'" ++ rest

theorem names_unvalued (x : Key × String) (failure : Option EvalError) :
    Names (unvalued x.1 x.2 failure) x := by
  have hquoted : ∀ rest : String, "'" ++ x.2 ++ ("'" ++ rest) = "'" ++ x.2 ++ "'" ++ rest :=
    fun _ => (String.append_assoc ..).symm
  have hcannot : ∀ e : EvalError, "'" ++ x.2 ++ "' cannot be represented: " ++ e.message =
      "'" ++ x.2 ++ "'" ++ (" cannot be represented: " ++ e.message) := by
    intro e
    rw [← String.append_assoc, ← hquoted]
    rfl
  cases failure with
  | none => exact ⟨rfl, rfl, _, hquoted " depends on values that never resolved"⟩
  | some e =>
    cases e with
    | emptyExpression => exact ⟨rfl, rfl, _, hquoted " has no value"⟩
    | _ => exact ⟨rfl, rfl, _, hcannot _⟩

structure Accounts (s t : Store) (r : ValueReport) : Prop where
  counts_eq : r.evaluated + r.unresolved = s.unvaluedItems.length
  unresolved_eq : r.unresolved = t.unvaluedItems.length
  named : List.Forall₂ Names r.diagnostics t.unvaluedItems

def Waits (s : Store) : Prop :=
  ∃ i ∈ s.items, ∀ j ∈ s.items, j.name = i.name → j.value = none

theorem waits_iff : s.Waits ↔ s.knowledge.pending.size ≠ 0 := by
  rw [ne_eq, (learned_knowledge s).pending_eq_zero_iff]
  unfold Waits
  push Not
  rfl

theorem accounts_of_waits (maxPasses : Option Nat) (h : s.Waits) :
    Accounts s (s.valuate maxPasses).1 (s.valuate maxPasses).2 := by
  unfold valuate
  rw [if_neg (waits_iff.mp h)]
  refine ⟨evaluated_swept maxPasses s, rfl, ?_⟩
  refine List.forall₂_map_left_iff.mpr (List.forall₂_same.mpr fun x _ => ?_)
  exact names_unvalued x _

theorem valuate_of_not_waits (maxPasses : Option Nat) (h : ¬s.Waits) : s.valuate maxPasses = (s, ⟨0, 0, 0, []⟩) := by
  rw [waits_iff, not_not] at h
  unfold valuate
  rw [if_pos h]

theorem accounts_of_valued (maxPasses : Option Nat) (hnil : s.unvaluedItems = []) :
    Accounts s (s.valuate maxPasses).1 (s.valuate maxPasses).2 := by
  by_cases hw : s.Waits
  · exact accounts_of_waits maxPasses hw
  · rw [valuate_of_not_waits maxPasses hw]
    exact ⟨by rw [hnil]; rfl, by rw [hnil]; rfl, by rw [hnil]; exact .nil⟩

theorem accounts_valuate_iff (maxPasses : Option Nat) (s : Store) :
    (Accounts s (s.valuate maxPasses).1 (s.valuate maxPasses).2 ↔ s.unvaluedItems = [] ∨ s.Waits) ∧
      (¬s.Waits → s.valuate maxPasses = (s, ⟨0, 0, 0, []⟩)) := by
  refine ⟨⟨fun h => ?_, ?_⟩, valuate_of_not_waits maxPasses⟩
  · by_cases hw : s.Waits
    · exact .inr hw
    · have hcounts := h.counts_eq
      rw [valuate_of_not_waits maxPasses hw] at hcounts
      exact .inl (List.length_eq_zero_iff.mp hcounts.symm)
  · rintro (hnil | hw)
    · exact accounts_of_valued maxPasses hnil
    · exact accounts_of_waits maxPasses hw

end HeaderBinding.Store
