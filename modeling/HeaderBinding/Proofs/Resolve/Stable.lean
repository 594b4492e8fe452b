import HeaderBinding.Proofs.Resolve.Valuation

namespace HeaderBinding.Store

variable {s t : Store}

def Stable (s : Store) : Prop :=
  Closed s.castTarget s.rules s.valueOf

theorem evaluated_sweep_le (hc : Coherent s.items) (target : String → CastTarget) (limit : Nat) :
    (sweep target s s.start).2.evaluated ≤ (sweeps target (limit + 1) s s.start).2.1.evaluated := by
  have hrules := coherent_rules hc
  have hstart := tracked_start hc target
  have hlater := sweeps_invariant target
    (I := fun t q => Tracked target s.rules s.valueOf t.items q ∧ (sweep target s s.start).2.evaluated ≤ q.evaluated)
    (fun t q ⟨ht, hq⟩ => by
      have hswept := swept_sweep hrules ht
      exact ⟨hswept.tracked ht, Nat.le_trans hq hswept.advances.evaluated_le⟩)
    limit ⟨(swept_sweep hrules hstart).tracked hstart, Nat.le_refl _⟩
  by_cases hidle : (sweep target s s.start).2.evaluated = s.start.evaluated
  · exact Nat.le_of_eq (congrArg (fun x => x.2.1.evaluated) (sweeps_idle hidle limit).symm)
  · rw [sweeps_onward hidle]
    exact hlater.2

theorem stable_of_evaluated_eq_zero (hc : Coherent s.items) {limit : Option Nat}
    (h : (s.valuate limit).2.evaluated = 0) : s.Stable := by
  obtain ⟨n, hn⟩ : ∃ n, max 1 (limit.getD s.knowledge.pending.size) = n + 1 :=
    Nat.exists_eq_add_of_le' (Nat.le_max_left ..)
  have hfirst : (sweep s.castTarget s s.start).2.evaluated = 0 := by
    have hle := evaluated_sweep_le hc s.castTarget n
    rw [(valuate_eq hc limit).2.1, swept, hn] at h
    exact Nat.eq_zero_of_le_zero (h ▸ hle)
  have hswept := swept_sweep (coherent_rules hc) (tracked_start hc s.castTarget)
  have hstill := hswept.advances.idle hfirst
  have hexhausted := (Swept.exhausted hswept hstill).2
  have hclosed := hexhausted.closed
  rw [hstill] at hclosed
  exact hclosed

theorem Stable.valuate_eq_self (hc : Coherent s.items) (h : s.Stable) (limit : Option Nat) :
    (s.valuate limit).1 = s := by
  have htracked := tracked_sweeps (coherent_rules hc) (tracked_start hc s.castTarget)
    (max 1 (limit.getD s.knowledge.pending.size))
  have hvalues : (s.swept limit).2.1.valueOf = s.valueOf := htracked.reached.derives.eq_of_closed_base h
  have hagree : Agree (s.swept limit).2.1 (s.swept limit).1.items := by
    intro i hi
    cases hvalue : i.value with
    | some v => exact (htracked.held i hi v hvalue).symm
    | none =>
      rw [hvalues]
      exact (htracked.unheld i hi hvalue).symm
  rw [(valuate_eq hc limit).1]
  refine (sweeps_eq_assign hagree).trans ?_
  change s.assign (s.swept limit).2.1.valueOf = s
  rw [hvalues]
  exact assign_eq_self fun i hi => (value_eq_of_coherent hc hi).symm

theorem coherent_of_sameItems (h : SameItems s.items t.items) (hc : Coherent s.items) : Coherent t.items :=
  fun i hi j hj => hc i ((h i).mpr hi) j ((h j).mpr hj)

theorem valueOf_of_sameItems (h : SameItems s.items t.items) (hc : Coherent s.items) : t.valueOf = s.valueOf := by
  have hc' := coherent_of_sameItems h hc
  have hnames : ∀ n, n ∈ t.items.map (·.name) ↔ n ∈ s.items.map (·.name) := by
    intro n
    simp only [List.mem_map]
    exact exists_congr fun i => and_congr_left fun _ => (h i).symm
  funext n
  by_cases hn : n ∈ t.items.map (·.name)
  · obtain ⟨i, hi, rfl⟩ := List.mem_map.mp hn
    rw [value_eq_of_coherent hc' hi, value_eq_of_coherent hc ((h i).mpr hi)]
  · have ht : t.valueOf n = none := (learned_knowledge t).value_eq_none hn
    have hs : s.valueOf n = none := (learned_knowledge s).value_eq_none fun hn' => hn ((hnames n).mpr hn')
    rw [hs, ht]

theorem Stable.of_sameItems (h : SameItems s.items t.items) (hc : Coherent s.items)
    (htarget : t.castTarget = s.castTarget) (hs : s.Stable) : t.Stable := by
  rw [Stable, htarget, valueOf_of_sameItems h hc]
  exact (h.map Item.bare).closed hs

end HeaderBinding.Store
