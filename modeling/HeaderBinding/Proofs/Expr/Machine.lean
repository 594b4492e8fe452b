import HeaderBinding.Expr.Machine
import HeaderBinding.Proofs.Expr.Typing
import HeaderBinding.Resolve.Valuation
import Mathlib.Tactic.Linarith

namespace HeaderBinding

def Kept (n : Int) : Prop :=
  -2 ^ 63 ≤ n ∧ n < 2 ^ 64

variable {m n : Int}

namespace Machine

theorem isWord_iff : isWord n = true ↔ -2 ^ 127 ≤ n ∧ n < 2 ^ 127 := by
  unfold isWord leastWord
  rw [Bool.and_eq_true_iff, decide_eq_true_iff, decide_eq_true_iff]

theorem isWord_of_natAbs_lt (h : n.natAbs < 2 ^ 127) : isWord n = true := by
  rw [isWord_iff]
  omega

theorem word_eq (h : isWord n = true) : word n = pure n :=
  if_pos h

end Machine

theorem Arithmetic.keep_of_isWord (a : Arithmetic) (h : Machine.isWord n = true) : a.keep n = n :=
  a.keep_eq_self (Machine.isWord_iff.mp h).1 (Machine.isWord_iff.mp h).2

theorem LiteralType.wrap?_of_width {t : LiteralType} {k : Nat} (h : t.width? = some (k + 1)) (n : Int) :
    t.wrap? n = some
      (if !t.isUnsigned && decide (2 ^ k ≤ n % 2 ^ (k + 1)) then n % 2 ^ (k + 1) - 2 ^ (k + 1)
        else n % 2 ^ (k + 1)) := by
  have hpow : (2 : Int) ^ (k + 1) = 2 ^ k * 2 := Int.pow_succ 2 k
  simp only [wrap?, h, Option.map_some, modulus_eq_two_pow, Int.bmod_def]
  congr 1
  cases t.isUnsigned with
  | true => rfl
  | false =>
    have hhalf : n % 2 ^ (k + 1) < (2 ^ (k + 1) + 1) / 2 ↔ ¬ 2 ^ k ≤ n % 2 ^ (k + 1) := by omega
    simp only [hhalf, Bool.not_false, Bool.true_and, decide_eq_true_eq, Bool.false_eq_true, if_false, ite_not]

namespace Bits

variable {k a b : Nat}

def Spans (k : Nat) : Int → Prop
  | .ofNat a => a < 2 ^ k
  | .negSucc a => a < 2 ^ k

theorem spans_iff : Spans k n ↔ -2 ^ k ≤ n ∧ n < 2 ^ k := by
  have hpow : (0 : Int) < 2 ^ k := Int.pow_pos (by decide)
  cases n with
  | ofNat a | negSucc a =>
    have hcast : (a : Int) < 2 ^ k ↔ a < 2 ^ k := by exact_mod_cast Iff.rfl
    simp only [Spans, Int.ofNat_eq_natCast]
    omega

theorem without_lt (h : a < 2 ^ k) (b : Nat) : without a b < 2 ^ k := by
  have hand : a &&& b < 2 ^ k := by
    rw [Nat.and_comm]
    exact Nat.and_lt_two_pow b h
  exact Nat.xor_lt_two_pow h hand

theorem spans_and (hm : Spans k m) (hn : Spans k n) : Spans k (and m n) := by
  cases m with
  | ofNat a =>
    cases n with
    | ofNat b => exact Nat.and_lt_two_pow a hn
    | negSucc b => exact without_lt hm b
  | negSucc a =>
    cases n with
    | ofNat b => exact without_lt hn a
    | negSucc b => exact Nat.or_lt_two_pow hm hn

theorem spans_or (hm : Spans k m) (hn : Spans k n) : Spans k (or m n) := by
  cases m with
  | ofNat a =>
    cases n with
    | ofNat b => exact Nat.or_lt_two_pow hm hn
    | negSucc b => exact without_lt hn a
  | negSucc a =>
    cases n with
    | ofNat b => exact without_lt hm b
    | negSucc b => exact Nat.and_lt_two_pow a hn

theorem spans_xor (hm : Spans k m) (hn : Spans k n) : Spans k (xor m n) := by
  cases m <;> cases n <;> exact Nat.xor_lt_two_pow hm hn

theorem isWord_of_spans (h : Spans 64 n) : Machine.isWord n = true := by
  rw [Machine.isWord_iff]
  have := spans_iff.mp h
  omega

end Bits

namespace Kept

theorem natAbs_lt (h : Kept n) : n.natAbs < 2 ^ 64 := by
  obtain ⟨h, hn⟩ := h
  omega

theorem spans (h : Kept n) : Bits.Spans 64 n := by
  rw [Bits.spans_iff]
  obtain ⟨h, hn⟩ := h
  omega

theorem isWord_neg (h : Kept n) : Machine.isWord (-n) = true := by
  have := h.natAbs_lt
  exact Machine.isWord_of_natAbs_lt (by omega)

theorem isWord_not (h : Kept n) : Machine.isWord (Bits.not n) = true := by
  have := h.natAbs_lt
  unfold Bits.not
  exact Machine.isWord_of_natAbs_lt (by omega)

theorem isWord_add (hm : Kept m) (hn : Kept n) : Machine.isWord (m + n) = true := by
  have := hm.natAbs_lt
  have := hn.natAbs_lt
  exact Machine.isWord_of_natAbs_lt (by omega)

theorem isWord_sub (hm : Kept m) (hn : Kept n) : Machine.isWord (m - n) = true := by
  have := hm.natAbs_lt
  have := hn.natAbs_lt
  exact Machine.isWord_of_natAbs_lt (by omega)

theorem isWord_tdiv (hm : Kept m) (n : Int) : Machine.isWord (m.tdiv n) = true := by
  have hle := Int.natAbs_tdiv_le_natAbs m n
  have := hm.natAbs_lt
  exact Machine.isWord_of_natAbs_lt (by omega)

theorem isWord_tmod (hm : Kept m) (n : Int) : Machine.isWord (m.tmod n) = true := by
  have hle : (m.tmod n).natAbs ≤ m.natAbs := by
    rw [Int.natAbs_tmod]
    exact Nat.mod_le _ _
  have := hm.natAbs_lt
  exact Machine.isWord_of_natAbs_lt (by omega)

theorem isWord_shiftLeft (hm : Kept m) {k : Nat} (hk : k < 64) : Machine.isWord (m <<< k) = true := by
  have hpow : 2 ^ k ≤ 2 ^ 63 := Nat.pow_le_pow_right (by decide) (by omega)
  have hm := hm.natAbs_lt
  refine Machine.isWord_of_natAbs_lt ?_
  calc (m <<< k).natAbs = m.natAbs * 2 ^ k := by
        rw [Int.shiftLeft_eq, Int.natAbs_mul, Int.natAbs_pow]
        rfl
    _ ≤ (2 ^ 64 - 1) * 2 ^ 63 := Nat.mul_le_mul (by omega) hpow
    _ < 2 ^ 127 := by decide

theorem isWord_shiftRight (hm : Kept m) (k : Nat) : Machine.isWord (m >>> k) = true := by
  have hle := Int.natAbs_ediv_le_natAbs m ((2 ^ k : Nat) : Int)
  have := hm.natAbs_lt
  rw [Int.shiftRight_eq_div_pow]
  exact Machine.isWord_of_natAbs_lt (by omega)

theorem le_mul (hm : Kept m) (hn : Kept n) : -2 ^ 127 ≤ m * n := by
  obtain ⟨hm, hm'⟩ := hm
  obtain ⟨hn, hn'⟩ := hn
  rcases Int.le_total 0 m with h | h <;> rcases Int.le_total 0 n with h' | h' <;> nlinarith

theorem of_toInt? {l : Literal} (h : l.toInt? = some n) : Kept n := by
  cases l with
  | int x =>
    cases h
    have hlow := x.le_toInt
    have hhigh := x.toInt_lt
    exact ⟨hlow, by omega⟩
  | uint x =>
    cases h
    have hlt := x.toNat_lt
    exact ⟨by omega, by omega⟩
  | char c =>
    cases h
    have hlt : c.toNat < 2 ^ 32 := c.val.toNat_lt
    exact ⟨by omega, by omega⟩
  | bool b =>
    cases h
    cases b <;> exact ⟨by decide, by decide⟩
  | single | double | string => cases h

end Kept

namespace Value

def Fits : Value → Prop
  | .integer n _ => Kept n
  | .floating _ _ | .char _ | .string _ | .bool _ => True

theorem WellTyped.fits {v : Value} (h : v.WellTyped) : v.Fits := by
  cases v with
  | integer n t => exact LiteralType.holds_bounds h
  | _ => exact True.intro

theorem fits_ofLiteral (v : TypedLiteral) : (ofLiteral v).Fits := by
  obtain ⟨l, t⟩ := v
  cases l with
  | int x => exact Kept.of_toInt? (l := .int x) rfl
  | uint x => exact Kept.of_toInt? (l := .uint x) rfl
  | _ => exact True.intro

theorem kept_of_promoted? {v : Value} {t : LiteralType} (hv : v.Fits) (h : v.promoted? = some (n, t)) :
    Kept n := by
  cases v with
  | integer m s =>
    cases h
    exact hv
  | char c =>
    cases h
    exact Kept.of_toInt? (l := .char c) rfl
  | bool b =>
    cases h
    exact Kept.of_toInt? (l := .bool b) rfl
  | floating | string => cases h

theorem not_holds (h : 2 ^ 64 ≤ n) (t : LiteralType) : t.holds n = false := by
  cases ht : t.holds n with
  | false => rfl
  | true =>
    have := LiteralType.holds_bounds ht
    omega

theorem result_of_le (h : 2 ^ 64 ≤ n) (a : Arithmetic) (floor : LiteralType) :
    result a n floor = .error .outOfRange := by
  have hnone : (LiteralType.widening.find? fun t => floor.rank ≤ t.rank && t.holds n) = none := by
    rw [List.find?_eq_none]
    intro t _ ht
    rw [not_holds h, Bool.and_false] at ht
    cases ht
  unfold result
  rw [not_holds h, if_neg (by decide), if_neg (by omega), hnone]

theorem result_of_product (hm : Kept m) (hn : Kept n) (h : Machine.isWord (m * n) = false)
    (a : Arithmetic) (floor : LiteralType) : result a (m * n) floor = .error .outOfRange := by
  have hle := Kept.le_mul hm hn
  refine result_of_le ?_ a floor
  by_contra hlt
  have hword : Machine.isWord (m * n) = true := Machine.isWord_iff.mpr ⟨hle, by omega⟩
  rw [h] at hword
  cases hword

end Value

theorem Expr.yields_fits (a : Arithmetic) (ctx : EvalContext) (e : Expr) : Yields Value.Fits (e.valueIn a ctx) := by
  refine e.yields_valueIn (fun _ hv => hv.fits) (fun name => ?_) a
  cases ctx.value name with
  | found v => exact Yields.ok (Value.fits_ofLiteral v)
  | pending => exact Yields.error _ _
  | unknown => exact Yields.error _ _

namespace Machine

variable (a : Arithmetic)

theorem done_inj {α : Type} {r r' : Except EvalError α} (h : done r = done r') : r = r' :=
  Option.some.inj h

theorem bind_eq {α β : Type} {P : α → Prop} {x : Machine α} {r : Except EvalError α} {f : α → Machine β}
    {g : α → Except EvalError β} (hx : x = done r) (h : Yields P r) (hf : ∀ a, P a → f a = done (g a)) :
    x >>= f = done (r >>= g) := by
  subst hx
  cases r with
  | ok a => exact hf a (h a rfl)
  | error e => rfl

theorem wrap_eq (t : LiteralType) (n : Int) : wrap t n = (t.wrap? n).elim (throw .outOfRange) pure := by
  cases hw : t.width? with
  | none =>
    simp only [wrap, LiteralType.wrap?, hw]
    rfl
  | some width =>
    obtain ⟨k, rfl, hk⟩ : ∃ k, width = k + 1 ∧ k < 64 := by
      cases t <;> cases hw <;> exact ⟨_, rfl, by decide⟩
    have hpow : (2 : Int) ^ (k + 1) = 2 ^ k * 2 := Int.pow_succ 2 k
    have hpos : (0 : Int) < 2 ^ k := Int.pow_pos (by decide)
    have hle : (2 : Int) ^ k ≤ 2 ^ 63 := by
      exact_mod_cast Nat.pow_le_pow_right (by decide : 0 < 2) (by omega)
    have hnonneg : 0 ≤ n % 2 ^ (k + 1) := Int.emod_nonneg n (by omega)
    have hlt : n % 2 ^ (k + 1) < 2 ^ (k + 1) := Int.emod_lt_of_pos n (by omega)
    have hmodulus : shiftLeft 1 (k + 1) = pure (2 ^ (k + 1)) := by
      rw [shiftLeft, if_pos (by omega), Int.shiftLeft_eq, Int.one_mul]
      exact word_eq (isWord_of_natAbs_lt (by omega))
    have hrest : residue n (2 ^ (k + 1)) = pure (n % 2 ^ (k + 1)) := by
      rw [residue, if_neg (by omega)]
      exact word_eq (isWord_of_natAbs_lt (by omega))
    have hhalf : quotient (2 ^ (k + 1)) 2 = pure (2 ^ k) := by
      rw [quotient, if_neg (by decide), hpow, Int.mul_tdiv_cancel _ (by decide)]
      exact word_eq (isWord_of_natAbs_lt (by omega))
    have hsub : sub (n % 2 ^ (k + 1)) (2 ^ (k + 1)) = pure (n % 2 ^ (k + 1) - 2 ^ (k + 1)) :=
      word_eq (isWord_of_natAbs_lt (by omega))
    simp only [wrap, hw, hmodulus, hrest, hhalf, hsub, pure_bind, LiteralType.wrap?_of_width hw]
    split <;> rfl

theorem wrapped_eq (t : LiteralType) (n : Int) :
    (do return Value.integer (← wrap t n) t) =
      done (match a.wrap? t n with
        | some m => .ok (.integer m t)
        | none => .error .outOfRange) := by
  rw [wrap_eq, Arithmetic.wrap?_eq]
  cases t.wrap? n <;> rfl

theorem result_eq (n : Int) (floor : LiteralType) : result n floor = done (Value.result a n floor) := by
  unfold result Value.result
  split
  · rfl
  · split
    · exact wrapped_eq a floor n
    · cases LiteralType.widening.find? fun t => floor.rank ≤ t.rank && t.holds n <;> rfl

theorem ofInteger_eq (l : IntegerLiteral) : ofInteger l = done (Value.ofInteger a l) := by
  unfold ofInteger Value.ofInteger
  rw [result_eq a]
  cases Value.result a l.value.toNat l.floor with
  | ok v => cases v <;> rfl
  | error e => rfl

theorem result_word (h : isWord n = true) (floor : LiteralType) :
    (do result (← word n) floor) = done (Value.result a n floor) := by
  rw [word_eq h, pure_bind, result_eq a]

theorem result_kept (h : isWord n = true) (floor : LiteralType) :
    (do result (← word n) floor) = done (Value.result a (a.keep n) floor) := by
  rw [a.keep_of_isWord h, result_word a h]

theorem unary_eq (op : UnaryOp) {v : Value} (hv : v.Fits) : unary op v = done (v.unary a op) := by
  cases v with
  | floating x single => rfl
  | string s => rfl
  | _ =>
    cases op with
    | neg => exact result_kept a (Value.kept_of_promoted? hv rfl).isWord_neg _
    | plus => exact result_eq a _ _
    | logicalNot => rfl
    | bitwiseNot =>
      have h := (Value.kept_of_promoted? hv rfl).isWord_not
      simp only [unary, Value.promoted?, complement, word_eq h, pure_bind]
      exact wrapped_eq a _ _

theorem yields_shiftAmount (n : Int) : Yields (· < 64) (Value.shiftAmount n) := by
  unfold Value.shiftAmount
  split
  · exact Yields.ok (by omega)
  · exact Yields.error _ _

theorem mul_eq (hm : Kept m) (hn : Kept n) (s t : LiteralType) :
    binaryInteger .mul m n s t = done (Value.binaryInteger a .mul m n s t) := by
  simp only [binaryInteger, Value.binaryInteger, Arithmetic.product?]
  cases hword : isWord (m * n) with
  | true => rw [if_pos rfl, if_pos (a.keep_of_isWord hword), result_eq a]
  | false =>
    have hrange := Value.result_of_product hm hn hword a (s.later t)
    by_cases hkeep : a.keep (m * n) = m * n
    · rw [if_neg (by decide), if_pos hkeep]
      exact congrArg done hrange.symm
    · rw [if_neg (by decide), if_neg hkeep]
      rfl

theorem binaryInteger_eq (op : BinaryOp) (hm : Kept m) (hn : Kept n) (s t : LiteralType) :
    binaryInteger op m n s t = done (Value.binaryInteger a op m n s t) := by
  cases op with
  | add => exact result_kept a (hm.isWord_add hn) _
  | sub => exact result_kept a (hm.isWord_sub hn) _
  | mul => exact mul_eq a hm hn s t
  | div =>
    simp only [binaryInteger, Value.binaryInteger]
    split
    · rfl
    · next h =>
      rw [quotient, if_neg h]
      exact result_kept a (hm.isWord_tdiv n) _
  | mod =>
    simp only [binaryInteger, Value.binaryInteger]
    split
    · rfl
    · next h =>
      have hleast : m ≠ leastWord := by
        have := hm.1
        unfold leastWord
        omega
      rw [remainder, if_neg (by tauto)]
      exact result_kept a (hm.isWord_tmod n) _
  | shiftLeft =>
    refine bind_eq rfl (yields_shiftAmount n) fun k hk => ?_
    rw [shiftLeft, if_pos (by omega)]
    exact result_kept a (hm.isWord_shiftLeft hk) _
  | shiftRight =>
    refine bind_eq rfl (yields_shiftAmount n) fun k hk => ?_
    rw [shiftRight, if_pos (by omega)]
    exact result_kept a (hm.isWord_shiftRight k) _
  | bitwiseAnd => exact result_word a (Bits.isWord_of_spans (Bits.spans_and hm.spans hn.spans)) _
  | bitwiseOr => exact result_word a (Bits.isWord_of_spans (Bits.spans_or hm.spans hn.spans)) _
  | bitwiseXor => exact result_word a (Bits.isWord_of_spans (Bits.spans_xor hm.spans hn.spans)) _
  | _ => rfl

theorem binary_eq (op : BinaryOp) {v w : Value} (hv : v.Fits) (hw : w.Fits) :
    binary op v w = done (v.binary a op w) := by
  unfold binary Value.binary
  cases v.isFloating || w.isFloating with
  | true => rfl
  | false =>
    cases hs : v.promoted? with
    | none => rfl
    | some p =>
      cases ht : w.promoted? with
      | none => rfl
      | some q =>
        exact binaryInteger_eq a op (Value.kept_of_promoted? hv hs) (Value.kept_of_promoted? hw ht) p.2 q.2

theorem cast_eq (denoted : CastTarget) (target : String) (pointer : Bool) (v : Value) :
    cast denoted target pointer v = done (v.cast a denoted target pointer) := by
  cases pointer with
  | true => rfl
  | false =>
    cases denoted with
    | integer t => exact bind_eq rfl (Yields.trivial _) fun n _ => wrapped_eq a t n
    | _ => rfl

theorem value_eq (ctx : EvalContext) (e : Expr) : value ctx e = done (e.valueIn a ctx) := by
  induction e with
  | integer l => exact ofInteger_eq a l
  | unary op operand ih => exact bind_eq ih (operand.yields_fits a ctx) fun v hv => unary_eq a op hv
  | binary op left right ihl ihr =>
    have htruth : ∀ v : Value, Yields (fun _ => True) v.truth := fun v => Yields.trivial v.truth
    have hright : (do
        let w ← value ctx right
        return Value.flag (← done w.truth)) = done (do
        let w ← right.valueIn a ctx
        return .flag (← w.truth)) :=
      bind_eq ihr (Yields.trivial _) fun w _ => bind_eq rfl (htruth w) fun b _ => rfl
    cases op with
    | logicalAnd =>
      refine bind_eq ihl (Yields.trivial _) fun v _ => bind_eq rfl (htruth v) fun b _ => ?_
      cases b with
      | true => exact hright
      | false => rfl
    | logicalOr =>
      refine bind_eq ihl (Yields.trivial _) fun v _ => bind_eq rfl (htruth v) fun b _ => ?_
      cases b with
      | true => rfl
      | false => exact hright
    | _ =>
      exact bind_eq ihl (left.yields_fits a ctx) fun v hv =>
        bind_eq ihr (right.yields_fits a ctx) fun w hw => binary_eq a _ hv hw
  | ternary condition thenExpr elseExpr ihc iht ihe =>
    refine bind_eq ihc (Yields.trivial _) fun v _ => bind_eq rfl (Yields.trivial v.truth) fun b _ => ?_
    cases b with
    | true => exact iht
    | false => exact ihe
  | cast target pointer operand ih =>
    exact bind_eq ih (Yields.trivial _) fun v _ => cast_eq a _ target pointer v
  | _ => rfl

theorem successor_eq (v : TypedLiteral) : successor v = done v.successor := by
  unfold successor TypedLiteral.successor
  cases hn : v.literal.toInt? with
  | none => rfl
  | some n =>
    have hone : Kept 1 := ⟨by decide, by decide⟩
    have hword := (Kept.of_toInt? hn).isWord_add hone
    simp only [add, word_eq hword, pure_bind]
    cases TypedLiteral.integerAs? (n + 1) v.type with
    | some w => rfl
    | none => cases TypedLiteral.integer? (n + 1) <;> rfl

end Machine

theorem Expr.exact_of_words (ctx : EvalContext) (e : Expr) :
    e.valueIn .words ctx = e.valueIn .exact ctx ∧ e.evaluate ctx = e.evaluateIn .exact ctx ∧
      (∀ n t, e.valueIn .words ctx = .ok (.integer n t) → -2 ^ 63 ≤ n ∧ n < 2 ^ 64) ∧
      Machine.value ctx e = Machine.done (e.valueIn .exact ctx) ∧
      (∀ v, Machine.successor v = Machine.done v.successor) ∧
      ∀ m n, Kept m → Kept n → Arithmetic.words.product? m n = none →
        ∀ t, Value.result .exact (m * n) t = .error .outOfRange := by
  have hvalue : e.valueIn .words ctx = e.valueIn .exact ctx :=
    Machine.done_inj ((Machine.value_eq .words ctx e).symm.trans (Machine.value_eq .exact ctx e))
  refine ⟨hvalue, ?_, ?_, Machine.value_eq .exact ctx e, Machine.successor_eq, ?_⟩
  · unfold evaluate evaluateIn
    rw [hvalue]
  · intro n t h
    exact e.yields_fits .words ctx _ h
  · intro m n hm hn hnone t
    refine Value.result_of_product hm hn ?_ .exact t
    cases hword : Machine.isWord (m * n) with
    | false => rfl
    | true =>
      rw [Arithmetic.product?, if_pos (Arithmetic.words.keep_of_isWord hword)] at hnone
      cases hnone

example : Machine.isWord ((2 ^ 64 - 1) <<< 63) = true := by decide

example : Arithmetic.words.product? (2 ^ 64 - 1) (2 ^ 64 - 1) = none := by decide

end HeaderBinding
