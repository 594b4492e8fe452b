import HeaderBinding.Expr.Eval
import HeaderBinding.Proofs.Expr.Yields
import Mathlib.Algebra.Ring.Int.Defs

namespace HeaderBinding

namespace LiteralType

variable {t : LiteralType} {m n : Int} {w : Nat}

theorem modulus_eq_two_pow (bits : Nat) : (modulus bits : Int) = 2 ^ bits := by
  rw [modulus, Nat.one_shiftLeft, Int.natCast_pow]
  rfl

theorem width_cases (h : t.width? = some w) : w = 8 ∨ w = 16 ∨ w = 32 ∨ w = 64 := by
  cases t <;> cases h <;> decide

theorem holds_iff (h : t.width? = some w) :
    t.holds n = true ↔
      if t.isUnsigned then 0 ≤ n ∧ n < 2 ^ w else -2 ^ (w - 1) ≤ n ∧ n < 2 ^ (w - 1) := by
  have hrange : t.range? =
      some (if t.isUnsigned then (0, (modulus w : Int) - 1)
        else (-(modulus (w - 1) : Int), (modulus (w - 1) : Int) - 1)) := by
    rw [range?, h, Option.map_some]
  rw [holds, hrange]
  cases t.isUnsigned <;> simp only [decide_eq_true_eq, Bool.and_eq_true, Bool.false_eq_true, if_false, if_true,
    Int.le_sub_one_iff, modulus_eq_two_pow]

theorem width_of_holds (h : t.holds n = true) : ∃ w, t.width? = some w := by
  cases hw : t.width? with
  | some w => exact ⟨w, rfl⟩
  | none =>
    rw [holds, range?, hw] at h
    cases h

theorem holds_bounds (h : t.holds n = true) : -2 ^ 63 ≤ n ∧ n < 2 ^ 64 := by
  obtain ⟨w, hw⟩ := width_of_holds h
  rw [holds_iff hw] at h
  rcases width_cases hw with rfl | rfl | rfl | rfl <;> split at h <;> omega

theorem holds_nonneg (h : t.holds n = true) (ht : t.isUnsigned = true) : 0 ≤ n := by
  obtain ⟨w, hw⟩ := width_of_holds h
  rw [holds_iff hw, if_pos ht] at h
  exact h.1

theorem holds_lt (h : t.holds n = true) (ht : t.isUnsigned = false) : n < 2 ^ 63 := by
  obtain ⟨w, hw⟩ := width_of_holds h
  rw [holds_iff hw, if_neg (by simp [ht])] at h
  rcases width_cases hw with rfl | rfl | rfl | rfl <;> omega

theorem holds_uint64 (h : 0 ≤ n) (hn : n < 2 ^ 64) : uint64.holds n = true :=
  (holds_iff rfl).mpr ⟨h, hn⟩

theorem holds_of_wrap? (h : t.wrap? n = some m) : t.holds m = true := by
  obtain ⟨w, hw, rfl⟩ := Option.map_eq_some_iff.mp h
  rw [holds_iff hw]
  split
  · have hpos : (0 : Int) < 2 ^ w := by
      rcases width_cases hw with rfl | rfl | rfl | rfl <;> decide
    rw [modulus_eq_two_pow]
    exact ⟨Int.emod_nonneg n (by omega), Int.emod_lt_of_pos n hpos⟩
  · rw [Int.bmod_def, modulus_eq_two_pow]
    rcases width_cases hw with rfl | rfl | rfl | rfl <;> omega

end LiteralType

namespace Arithmetic

variable {a : Arithmetic} {n : Int}

theorem keep_eq_self (a : Arithmetic) (h : -2 ^ 127 ≤ n) (hn : n < 2 ^ 127) : a.keep n = n := by
  cases a with
  | words =>
    rw [keep, Int.bmod_def, LiteralType.modulus_eq_two_pow]
    omega
  | exact => rfl

@[simp] theorem wrap?_eq (a : Arithmetic) (t : LiteralType) (n : Int) : a.wrap? t n = t.wrap? n := by
  unfold wrap?
  cases hw : t.wrap? n with
  | none => rfl
  | some m =>
    have hm := LiteralType.holds_bounds (LiteralType.holds_of_wrap? hw)
    rw [Option.map_some, a.keep_eq_self (by omega) (by omega)]

end Arithmetic

namespace TypedLiteral

variable {v : TypedLiteral} {n : Int} {t : LiteralType}

theorem wellFormed_of_integerAs? (h : integerAs? n t = some v) : v.WellFormed := by
  unfold integerAs? at h
  split at h
  · next hn =>
    have hbounds := LiteralType.holds_bounds hn
    cases h
    cases ht : t.isUnsigned with
    | true =>
      have hnonneg := LiteralType.holds_nonneg hn ht
      have hvalue : ((UInt64.ofInt n).toNat : Int) = n := by
        rw [UInt64.ofInt, UInt64.toNat_ofNat']
        omega
      simp only [WellFormed, ite_true]
      exact ⟨ht, by rw [hvalue]; exact hn⟩
    | false =>
      have hlt := LiteralType.holds_lt hn ht
      have hvalue : (Int64.ofInt n).toInt = n :=
        Int64.toInt_ofInt_of_le (by omega) (by omega)
      simp only [WellFormed, Bool.false_eq_true, ite_false]
      exact ⟨ht, by rw [hvalue]; exact hn⟩
  · cases h

theorem toInt?_of_integerAs? (h : integerAs? n t = some v) : v.literal.toInt? = some n ∧ v.type = t := by
  unfold integerAs? at h
  split at h
  · next hn =>
    have hbounds := LiteralType.holds_bounds hn
    cases h
    refine ⟨?_, rfl⟩
    cases ht : t.isUnsigned with
    | true =>
      have hnonneg := LiteralType.holds_nonneg hn ht
      have hvalue : ((UInt64.ofInt n).toNat : Int) = n := by
        rw [UInt64.ofInt, UInt64.toNat_ofNat']
        omega
      exact congrArg some hvalue
    | false =>
      have hlt := LiteralType.holds_lt hn ht
      have hvalue : (Int64.ofInt n).toInt = n := Int64.toInt_ofInt_of_le (by omega) (by omega)
      exact congrArg some hvalue
  · cases h

theorem toInt?_of_narrowedTo? {w : TypedLiteral} (h : v.narrowedTo? t = some w) :
    w.type = t ∧ ∃ n, v.literal.toInt? = some n ∧ w.literal.toInt? = some n := by
  obtain ⟨n, hn, hw⟩ := Option.bind_eq_some_iff.mp h
  obtain ⟨hvalue, htype⟩ := toInt?_of_integerAs? hw
  exact ⟨htype, n, hn, hvalue⟩

theorem integerAs?_of_holds (h : t.holds n = true) : ∃ v, integerAs? n t = some v := by
  unfold integerAs?
  rw [if_pos h]
  exact ⟨_, rfl⟩

theorem wellFormed_of_integer? (h : integer? n = some v) : v.WellFormed := by
  obtain ⟨t, -, ht⟩ := Option.bind_eq_some_iff.mp h
  exact wellFormed_of_integerAs? ht

end TypedLiteral

namespace Value

def WellTyped : Value → Prop
  | .integer n t => t.holds n = true
  | .floating _ _ | .char _ | .string _ | .bool _ => True

variable (a : Arithmetic)

theorem wellTyped_flag (b : Bool) : (flag b).WellTyped := by
  cases b with
  | true => exact (by decide : LiteralType.int32.holds 1 = true)
  | false => exact (by decide : LiteralType.int32.holds 0 = true)

theorem wellTyped_ofLiteral {v : TypedLiteral} (h : v.WellFormed) : (ofLiteral v).WellTyped := by
  obtain ⟨l, t⟩ := v
  cases l with
  | int n => exact h.2
  | uint n => exact h.2
  | _ => exact True.intro

theorem yields_wrap (t : LiteralType) (n : Int) :
    Yields WellTyped
      (match a.wrap? t n with
        | some m => .ok (.integer m t)
        | none => .error .outOfRange) := by
  rw [Arithmetic.wrap?_eq]
  cases hw : t.wrap? n with
  | none => exact Yields.error _ _
  | some m => exact Yields.ok (LiteralType.holds_of_wrap? hw)

theorem yields_result (n : Int) (floor : LiteralType) : Yields WellTyped (result a n floor) := by
  unfold result
  split
  · next h => exact Yields.ok h
  · split
    · exact yields_wrap a floor n
    · cases hf : LiteralType.widening.find? fun t => floor.rank ≤ t.rank && t.holds n with
      | none => exact Yields.error _ _
      | some t =>
        have ht := List.find?_some hf
        exact Yields.ok (Bool.and_eq_true_iff.mp ht).2

theorem eq_of_result {n m : Int} {floor t : LiteralType} (hn : 0 ≤ n)
    (h : result a n floor = .ok (.integer m t)) : m = n := by
  unfold result at h
  split at h
  · cases h
    rfl
  · rw [if_neg (by omega)] at h
    split at h
    · cases h
      rfl
    · cases h

theorem yields_ofInteger (l : IntegerLiteral) : Yields WellTyped (ofInteger a l) := by
  unfold ofInteger
  split
  · next n t hr =>
    have ht := yields_result a _ _ _ hr
    have hn := eq_of_result a (Int.natCast_nonneg _) hr
    split
    · have hlt := l.value.toNat_lt
      exact Yields.ok (LiteralType.holds_uint64 (by omega) (by omega))
    · exact Yields.ok ht
  · exact yields_result a _ _

theorem yields_unary (op : UnaryOp) (v : Value) : Yields WellTyped (v.unary a op) := by
  cases v with
  | floating x single =>
    cases op with
    | neg => exact Yields.ok True.intro
    | plus => exact Yields.ok True.intro
    | logicalNot => exact Yields.ok (wellTyped_flag _)
    | bitwiseNot => exact Yields.error _ _
  | _ =>
    simp only [unary]
    split
    · exact Yields.error _ _
    · cases op with
      | neg => exact yields_result a _ _
      | plus => exact yields_result a _ _
      | logicalNot => exact Yields.ok (wellTyped_flag _)
      | bitwiseNot => exact yields_wrap a _ _

theorem yields_binaryInteger (op : BinaryOp) (m n : Int) (s t : LiteralType) :
    Yields WellTyped (binaryInteger a op m n s t) := by
  cases op with
  | add | sub | bitwiseAnd | bitwiseOr | bitwiseXor => exact yields_result a _ _
  | mul =>
    simp only [binaryInteger]
    split
    · exact yields_result a _ _
    · exact Yields.error _ _
  | div | mod =>
    simp only [binaryInteger]
    split
    · exact Yields.error _ _
    · exact yields_result a _ _
  | shiftLeft | shiftRight => exact (Yields.trivial _).bind fun _ _ => yields_result a _ _
  | _ => exact Yields.ok (wellTyped_flag _)

theorem yields_binaryFloating (op : BinaryOp) (x y : Float) (single : Bool) :
    Yields WellTyped (binaryFloating op x y single) := by
  cases op with
  | add | sub | mul => exact Yields.ok True.intro
  | div =>
    simp only [binaryFloating]
    split
    · exact Yields.error _ _
    · exact Yields.ok True.intro
  | equal | notEqual | less | lessEqual | greater | greaterEqual => exact Yields.ok (wellTyped_flag _)
  | _ => exact Yields.error _ _

theorem yields_binary (op : BinaryOp) (v w : Value) : Yields WellTyped (v.binary a op w) := by
  unfold binary
  split
  · split
    · exact yields_binaryFloating op _ _ _
    · exact Yields.error _ _
  · split
    · exact yields_binaryInteger a op _ _ _ _
    · exact Yields.error _ _

theorem yields_cast (denoted : CastTarget) (target : String) (pointer : Bool) (v : Value) :
    Yields WellTyped (v.cast a denoted target pointer) := by
  unfold cast
  split
  · exact Yields.error _ _
  · cases denoted with
    | integer t => exact (Yields.trivial _).bind fun n _ => yields_wrap a t n
    | floating single =>
      dsimp only
      split
      · exact Yields.ok True.intro
      · exact Yields.error _ _
    | boolean => exact (Yields.trivial v.truth).bind fun _ _ => Yields.ok True.intro
    | noLiteral => exact Yields.error _ _
    | notAType => exact Yields.error _ _

theorem WellTyped.exists_literal {v : Value} (h : v.WellTyped) : ∃ w, v.toLiteral = .ok w := by
  cases v with
  | integer n t =>
    obtain ⟨w, hw⟩ := TypedLiteral.integerAs?_of_holds h
    exact ⟨w, by simp only [toLiteral, hw]⟩
  | floating x single => cases single <;> exact ⟨_, rfl⟩
  | _ => exact ⟨_, rfl⟩

theorem yields_toLiteral (v : Value) : Yields TypedLiteral.WellFormed v.toLiteral := by
  cases v with
  | integer n t =>
    simp only [toLiteral]
    split
    · next hw => exact Yields.ok (TypedLiteral.wellFormed_of_integerAs? hw)
    · exact Yields.error _ _
  | floating x single => cases single <;> exact Yields.ok rfl
  | _ => exact Yields.ok rfl

end Value

namespace Expr

theorem yields_valueIn {P : Value → Prop} (hP : ∀ v, v.WellTyped → P v) {ctx : EvalContext}
    (hlookup : ∀ name, Yields P (ofLookup name (ctx.value name))) (a : Arithmetic) (e : Expr) :
    Yields P (e.valueIn a ctx) := by
  induction e with
  | integer l => exact (Value.yields_ofInteger a l).imp hP
  | ident name => exact hlookup name
  | unary op operand ih => exact ih.bind fun v _ => (Value.yields_unary a op v).imp hP
  | binary op left right ihl ihr =>
    have hflag : ∀ b : Bool, Yields P (.ok (Value.flag b)) :=
      fun b => Yields.ok (hP _ (Value.wellTyped_flag b))
    have hright : Yields P (do
        let w ← right.valueIn a ctx
        return .flag (← w.truth)) :=
      ihr.bind fun w _ => (Yields.trivial w.truth).bind fun b _ => hflag b
    cases op with
    | logicalAnd =>
      refine ihl.bind fun v _ => (Yields.trivial v.truth).bind fun b _ => ?_
      cases b with
      | true => exact hright
      | false => exact hflag false
    | logicalOr =>
      refine ihl.bind fun v _ => (Yields.trivial v.truth).bind fun b _ => ?_
      cases b with
      | true => exact hflag true
      | false => exact hright
    | _ => exact ihl.bind fun v _ => ihr.bind fun w _ => (Value.yields_binary a _ v w).imp hP
  | ternary condition thenExpr elseExpr _ iht ihe =>
    refine (Yields.trivial _).bind fun v _ => (Yields.trivial v.truth).bind fun b _ => ?_
    cases b with
    | true => exact iht
    | false => exact ihe
  | cast target pointer operand ih =>
    exact ih.bind fun v _ => (Value.yields_cast a _ target pointer v).imp hP
  | _ => exact Yields.ok (hP _ True.intro)

end Expr

namespace EvalContext

variable {ctx : EvalContext}

def WellFormed (ctx : EvalContext) : Prop :=
  ∀ name v, ctx.value name = .found v → v.WellFormed

theorem WellFormed.yields_valueIn (h : ctx.WellFormed) (a : Arithmetic) (e : Expr) :
    Yields Value.WellTyped (e.valueIn a ctx) := by
  refine e.yields_valueIn (fun _ hv => hv) (fun name => ?_) a
  cases hv : ctx.value name with
  | found v => exact Yields.ok (Value.wellTyped_ofLiteral (h name v hv))
  | pending => exact Yields.error _ _
  | unknown => exact Yields.error _ _

theorem WellFormed.yields_evaluate (h : ctx.WellFormed) (e : Expr) :
    Yields TypedLiteral.WellFormed (e.evaluate ctx) :=
  (h.yields_valueIn .words e).bind fun v _ => v.yields_toLiteral

theorem WellFormed.yields_evaluateText (h : ctx.WellFormed) (source : String) :
    Yields TypedLiteral.WellFormed (evaluateText ctx source) :=
  (Yields.trivial (tokenize source)).bind fun tokens _ =>
    (Yields.trivial (Expr.parse ctx.isType tokens)).bind fun e _ => h.yields_evaluate e

end EvalContext

end HeaderBinding
