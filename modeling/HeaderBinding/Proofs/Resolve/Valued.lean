import HeaderBinding.Proofs.Expr.Typing
import HeaderBinding.Proofs.Resolve.Settle
import HeaderBinding.Proofs.Resolve.Valuation

namespace HeaderBinding

variable {P : TypedLiteral → Prop}

theorem hereditary_wellFormed : Hereditary TypedLiteral.WellFormed where
  first := ⟨rfl, by decide⟩
  next v _ := by
    unfold TypedLiteral.successor
    split
    · exact Yields.error _ _
    · split
      · next h => exact Yields.ok (TypedLiteral.wellFormed_of_integerAs? h)
      · split
        · next h => exact Yields.ok (TypedLiteral.wellFormed_of_integer? h)
        · exact Yields.error _ _
  written _ source h := EvalContext.WellFormed.yields_evaluateText h source

namespace Store

variable {s : Store}

theorem revalued_valuateAll (hP : Hereditary P) (h : Valued P s.items) (limits : List (Option Nat)) :
    Revalued P assign items s (s.valuateAll limits) := by
  induction limits generalizing s with
  | nil => exact .refl h
  | cons limit rest ih =>
    have hfirst := revalued_valuate hP h limit
    have hrest := ih hfirst.valued
    exact ⟨hrest.assign_eq.trans hfirst.assign_eq, hrest.valued⟩

structure WellValued (s : Store) : Prop where
  constants : ∀ c ∈ s.constants.toList, ∀ v ∈ c.value, v.WellFormed
  enumerators : ∀ x ∈ s.enumerations, ∀ m ∈ x.2.members, ∀ v ∈ m.value, v.WellFormed
  signatures : ∀ d ∈ s.procedures.toList, ∀ t ∈ Declaration.roots d, ∀ e ∈ t.enumerations, ∀ m ∈ e.members,
    ∀ v ∈ m.value, v.WellFormed

theorem wellValued_valuateAll {ctx : EvalContext} (hctx : ctx.WellFormed) {s : Store} (hs : s.WellValued) :
    (∀ (e : Expr) (w : TypedLiteral), e.evaluate ctx = .ok w → w.WellFormed) ∧
      (∀ (e : Expr) (v : Value), e.valueIn .words ctx = .ok v → ∃ w, e.evaluate ctx = .ok w ∧ v.toLiteral = .ok w) ∧
      ∀ limits, (s.valuateAll limits).WellValued := by
  refine ⟨fun e => hctx.yields_evaluate e, fun e v hv => ?_, fun limits => ?_⟩
  · obtain ⟨w, hw⟩ := (hctx.yields_valueIn .words e v hv).exists_literal
    refine ⟨w, ?_, hw⟩
    rw [Expr.evaluate, Expr.evaluateIn, hv]
    exact hw
  · have hitems : Valued TypedLiteral.WellFormed s.items := valued_items.mpr ⟨hs.constants, hs.enumerators⟩
    have hvalued := revalued_valuateAll hereditary_wellFormed hitems limits
    obtain ⟨hconstants, henumerators⟩ := valued_items.mp hvalued.valued
    have hprocedures : (s.valuateAll limits).procedures = s.procedures := by
      have := congrArg Store.procedures hvalued.assign_eq
      exact this
    refine ⟨hconstants, henumerators, ?_⟩
    rw [hprocedures]
    exact hs.signatures

theorem wellValued_valuateAll_of_byte :
    let five : TypedLiteral := ⟨.uint 5, .byte⟩
    let ctx : EvalContext := ⟨fun _ => .found five, .ofSpelling⟩
    let s := ofConstants [⟨"A", "5", .declared, some five⟩, ⟨"B", "~A", .preprocessor, none⟩]
    ctx.WellFormed ∧ s.WellValued ∧
      (∀ (e : Expr) (w : TypedLiteral), e.evaluate ctx = .ok w → w.WellFormed) ∧
      (∀ (e : Expr) (v : Value), e.valueIn .words ctx = .ok v →
        ∃ w, e.evaluate ctx = .ok w ∧ v.toLiteral = .ok w) ∧
      ∀ limits, (s.valuateAll limits).WellValued := by
  intro five ctx s
  have hfive : five.WellFormed := ⟨rfl, by decide⟩
  have hctx : ctx.WellFormed := by
    intro _ v hv
    cases hv
    exact hfive
  have hs : s.WellValued := by
    refine ⟨fun c hc v hv => ?_, nofun, nofun⟩
    rcases List.mem_pair.mp hc with rfl | rfl
    · cases hv
      exact hfive
    · cases hv
  exact ⟨hctx, hs, wellValued_valuateAll hctx hs⟩

end Store

end HeaderBinding
