import HeaderBinding.Expr.Whole
import HeaderBinding.Proofs.Expr.Typing
import Mathlib.Data.Int.ModEq

namespace HeaderBinding

namespace Bits

variable {k : Nat} {m m' n n' : Int}

theorem without_eq_ldiff (a b : Nat) : without a b = Nat.ldiff a b := by
  refine Nat.eq_of_testBit_eq fun i => ?_
  rw [without, Nat.testBit_xor, Nat.testBit_and, Nat.testBit_ldiff]
  cases a.testBit i <;> cases b.testBit i <;> rfl

theorem and_eq_land (m n : Int) : and m n = m.land n := by
  cases m <;> cases n <;> simp only [and, Int.land, without_eq_ldiff, Int.ofNat_eq_natCast]

theorem or_eq_lor (m n : Int) : or m n = m.lor n := by
  cases m <;> cases n <;> simp only [or, Int.lor, without_eq_ldiff, Int.ofNat_eq_natCast]

theorem xor_eq_xor (m n : Int) : xor m n = m.xor n := by
  cases m <;> cases n <;> simp only [xor, Int.xor, Int.ofNat_eq_natCast]

theorem testBit_emod (n : Int) (k i : Nat) :
    (n % 2 ^ k).toNat.testBit i = (decide (i < k) && n.testBit i) := by
  have hpow : ((2 ^ k : Nat) : Int) = 2 ^ k := Int.natCast_pow 2 k
  cases n with
  | ofNat a =>
    have hmod : (Int.ofNat a % 2 ^ k).toNat = a % 2 ^ k := by
      rw [← hpow]
      rfl
    rw [hmod, Nat.testBit_mod_two_pow]
    rfl
  | negSucc a =>
    have hlt : a % 2 ^ k < 2 ^ k := Nat.mod_lt a (Nat.two_pow_pos k)
    have hmod : (Int.negSucc a % 2 ^ k).toNat = 2 ^ k - (a % 2 ^ k + 1) := by
      rw [Int.negSucc_emod a (Int.pow_pos (by decide)), ← hpow]
      omega
    rw [hmod, Nat.testBit_two_pow_sub_succ hlt, Nat.testBit_mod_two_pow]
    cases hi : decide (i < k) <;> simp [Int.testBit]

theorem modEq_iff : m ≡ n [ZMOD 2 ^ k] ↔ ∀ i < k, m.testBit i = n.testBit i := by
  constructor
  · intro h i hi
    have hbit := testBit_emod m k i
    rw [h, testBit_emod] at hbit
    simpa [hi] using hbit.symm
  · intro h
    have hpos : (0 : Int) < 2 ^ k := Int.pow_pos (by decide)
    have hm : 0 ≤ m % 2 ^ k := Int.emod_nonneg m (by omega)
    have hn : 0 ≤ n % 2 ^ k := Int.emod_nonneg n (by omega)
    have hbits : (m % 2 ^ k).toNat = (n % 2 ^ k).toNat := by
      refine Nat.eq_of_testBit_eq fun i => ?_
      rw [testBit_emod, testBit_emod]
      by_cases hi : i < k
      · rw [h i hi]
      · simp [hi]
    unfold Int.ModEq
    omega

theorem and_modEq (hm : m ≡ m' [ZMOD 2 ^ k]) (hn : n ≡ n' [ZMOD 2 ^ k]) : and m n ≡ m'.land n' [ZMOD 2 ^ k] := by
  refine modEq_iff.mpr fun i hi => ?_
  rw [and_eq_land, Int.testBit_land, Int.testBit_land, modEq_iff.mp hm i hi, modEq_iff.mp hn i hi]

theorem or_modEq (hm : m ≡ m' [ZMOD 2 ^ k]) (hn : n ≡ n' [ZMOD 2 ^ k]) : or m n ≡ m'.lor n' [ZMOD 2 ^ k] := by
  refine modEq_iff.mpr fun i hi => ?_
  rw [or_eq_lor, Int.testBit_lor, Int.testBit_lor, modEq_iff.mp hm i hi, modEq_iff.mp hn i hi]

theorem xor_modEq (hm : m ≡ m' [ZMOD 2 ^ k]) (hn : n ≡ n' [ZMOD 2 ^ k]) : xor m n ≡ m'.xor n' [ZMOD 2 ^ k] := by
  refine modEq_iff.mpr fun i hi => ?_
  rw [xor_eq_xor, Int.testBit_lxor, Int.testBit_lxor, modEq_iff.mp hm i hi, modEq_iff.mp hn i hi]

end Bits

variable {m n : Int}

theorem LiteralType.pow_dvd_modulus {k : Nat} (hk : 32 ≤ k) : (2 : Int) ^ 32 ∣ modulus k := by
  rw [modulus_eq_two_pow]
  exact pow_dvd_pow 2 hk

theorem bmod_modEq (n : Int) {k : Nat} (hk : 32 ≤ k) : n.bmod (LiteralType.modulus k) ≡ n [ZMOD 2 ^ 32] := by
  have hbmod : n.bmod (LiteralType.modulus k) ≡ n [ZMOD LiteralType.modulus k] := Int.bmod_emod
  exact hbmod.of_dvd (LiteralType.pow_dvd_modulus hk)

theorem Arithmetic.keep_modEq (a : Arithmetic) (n : Int) : a.keep n ≡ n [ZMOD 2 ^ 32] := by
  cases a with
  | words => exact bmod_modEq n (by decide)
  | exact => rfl

namespace LiteralType

variable {s t : LiteralType}

def IsPromoted (t : LiteralType) : Prop :=
  int32.rank ≤ t.rank

instance : DecidablePred IsPromoted := fun _ => inferInstanceAs (Decidable (_ ≤ _))

theorem isPromoted_later_int32 (t : LiteralType) : (t.later .int32).IsPromoted := by
  cases t <;> decide

theorem IsPromoted.later (hs : s.IsPromoted) (ht : t.IsPromoted) : (s.later t).IsPromoted := by
  unfold LiteralType.later
  split
  · exact ht
  · exact hs

theorem IsWide.isPromoted (h : t.IsWide) : t.IsPromoted := by
  revert h
  cases t <;> decide

theorem IsPromoted.width_ge (ht : t.IsPromoted) {w : Nat} (hw : t.width? = some w) : 32 ≤ w := by
  cases t <;> cases hw <;> revert ht <;> decide

theorem IsPromoted.wrap?_modEq (ht : t.IsPromoted) (h : t.wrap? n = some m) : m ≡ n [ZMOD 2 ^ 32] := by
  obtain ⟨w, hw, rfl⟩ := Option.map_eq_some_iff.mp h
  split
  · exact (Int.mod_modEq n (modulus w)).of_dvd (pow_dvd_modulus (ht.width_ge hw))
  · exact bmod_modEq n (ht.width_ge hw)

end LiteralType

namespace Value

def Congruent (n : Int) (v : Value) : Prop :=
  ∃ m t, v.promoted? = some (m, t) ∧ m ≡ n [ZMOD 2 ^ 32]

variable {v w : Value} {t : LiteralType} (a : Arithmetic)

theorem isPromoted_of_promoted? (h : v.promoted? = some (m, t)) : t.IsPromoted := by
  cases v with
  | integer n s =>
    cases h
    exact s.isPromoted_later_int32
  | char c | bool b =>
    cases h
    decide
  | floating | string => cases h

theorem congruent_integer (t : LiteralType) (h : m ≡ n [ZMOD 2 ^ 32]) : Congruent n (.integer m t) :=
  ⟨m, t.later .int32, rfl, h⟩

theorem congruent_wrap (ht : t.IsPromoted) (h : m ≡ n [ZMOD 2 ^ 32]) :
    Yields (Congruent n)
      (match a.wrap? t m with
        | some m => .ok (.integer m t)
        | none => .error .outOfRange) := by
  rw [Arithmetic.wrap?_eq]
  cases hw : t.wrap? m with
  | none => exact Yields.error _ _
  | some m' => exact Yields.ok (congruent_integer t ((ht.wrap?_modEq hw).trans h))

theorem congruent_result (ht : t.IsPromoted) (h : m ≡ n [ZMOD 2 ^ 32]) : Yields (Congruent n) (result a m t) := by
  unfold result
  split
  · exact Yields.ok (congruent_integer t h)
  · split
    · exact congruent_wrap a ht h
    · split
      · exact Yields.ok (congruent_integer _ h)
      · exact Yields.error _ _

theorem congruent_kept (ht : t.IsPromoted) (h : m ≡ n [ZMOD 2 ^ 32]) :
    Yields (Congruent n) (result a (a.keep m) t) :=
  congruent_result a ht ((a.keep_modEq m).trans h)

theorem yields_result_of_nonneg (hn : 0 ≤ n) (floor : LiteralType) :
    Yields (fun v => ∃ t, v = .integer n t) (result a n floor) := by
  unfold result
  split
  · exact Yields.ok ⟨floor, rfl⟩
  · rw [if_neg (by omega)]
    split
    · exact Yields.ok ⟨_, rfl⟩
    · exact Yields.error _ _

theorem yields_ofInteger_integer (l : IntegerLiteral) :
    Yields (fun v => ∃ t, v = .integer l.value.toNat t) (ofInteger a l) := by
  have hresult := yields_result_of_nonneg a (Int.natCast_nonneg l.value.toNat) l.floor
  unfold ofInteger
  split
  · next n t hr =>
    obtain ⟨t', heq⟩ := hresult _ hr
    cases heq
    exact Yields.ok ⟨_, rfl⟩
  · exact hresult

theorem unary_of_promoted? (h : v.promoted? = some (m, t)) (op : UnaryOp) :
    v.unary a op =
      match op with
      | .neg => result a (a.keep (-m)) t
      | .plus => result a m t
      | .logicalNot => .ok (flag (m == 0))
      | .bitwiseNot =>
        match a.wrap? t (Bits.not m) with
        | some m => .ok (.integer m t)
        | none => .error .outOfRange := by
  cases v with
  | floating | string => cases h
  | _ =>
    cases h
    cases op <;> rfl

theorem isFloating_of_promoted? {s : LiteralType} (h : v.promoted? = some (m, s)) : v.isFloating = false := by
  cases v with
  | floating => cases h
  | _ => rfl

theorem binary_of_promoted? {s : LiteralType} (hv : v.promoted? = some (m, s)) (hw : w.promoted? = some (n, t))
    (op : BinaryOp) : v.binary a op w = binaryInteger a op m n s t := by
  unfold binary
  rw [isFloating_of_promoted? hv, isFloating_of_promoted? hw, hv, hw]
  rfl

namespace Congruent

variable {k : Int}

theorem plus (h : v.Congruent n) : Yields (Congruent n) (v.unary a .plus) := by
  obtain ⟨m, t, hv, hm⟩ := h
  rw [unary_of_promoted? a hv]
  exact congruent_result a (isPromoted_of_promoted? hv) hm

theorem neg (h : v.Congruent n) : Yields (Congruent (-n)) (v.unary a .neg) := by
  obtain ⟨m, t, hv, hm⟩ := h
  rw [unary_of_promoted? a hv]
  exact congruent_kept a (isPromoted_of_promoted? hv) hm.neg

theorem bitwiseNot (h : v.Congruent n) : Yields (Congruent (-n - 1)) (v.unary a .bitwiseNot) := by
  obtain ⟨m, t, hv, hm⟩ := h
  rw [unary_of_promoted? a hv]
  exact congruent_wrap a (isPromoted_of_promoted? hv) (hm.neg.sub_right 1)

theorem binary (hv : v.Congruent m) (hw : w.Congruent n) {op : BinaryOp}
    (hop : ∀ {i j : Int} {s t : LiteralType}, s.IsPromoted → t.IsPromoted → i ≡ m [ZMOD 2 ^ 32] →
      j ≡ n [ZMOD 2 ^ 32] → Yields (Congruent k) (binaryInteger a op i j s t)) :
    Yields (Congruent k) (v.binary a op w) := by
  obtain ⟨i, s, hs, hi⟩ := hv
  obtain ⟨j, t, ht, hj⟩ := hw
  rw [binary_of_promoted? a hs ht]
  exact hop (isPromoted_of_promoted? hs) (isPromoted_of_promoted? ht) hi hj

theorem mul (hv : v.Congruent m) (hw : w.Congruent n) : Yields (Congruent (m * n)) (v.binary a .mul w) := by
  refine hv.binary a hw fun {i j s t} hs ht hi hj => ?_
  simp only [binaryInteger, Arithmetic.product?]
  split
  · next p hp =>
    split at hp
    · cases hp
      exact congruent_result a (hs.later ht) (hi.mul hj)
    · cases hp
  · exact Yields.error _ _

theorem shiftLeft (hv : v.Congruent m) {amount : Nat} (hamount : amount < 64) (t : LiteralType) :
    Yields (Congruent (m * 2 ^ amount)) (v.binary a .shiftLeft (.integer amount t)) := by
  obtain ⟨i, s, hs, hi⟩ := hv
  rw [binary_of_promoted? a hs rfl]
  have hshift : shiftAmount amount = .ok amount := by
    rw [shiftAmount, if_pos (by omega)]
    rfl
  have hpow : i <<< amount ≡ m * 2 ^ amount [ZMOD 2 ^ 32] := by
    rw [Int.shiftLeft_eq]
    exact hi.mul_right _
  simp only [binaryInteger, hshift]
  exact congruent_kept a (isPromoted_of_promoted? hs) hpow

theorem cast (h : v.Congruent n) (ht : t.IsPromoted) (target : String) :
    Yields (Congruent n) (v.cast a (.integer t) target false) := by
  obtain ⟨m, s, hv, hm⟩ := h
  have hsource : castSource target v = .ok m := by
    cases v with
    | floating | string => cases hv
    | _ =>
      cases hv
      rfl
  simp only [Value.cast, hsource]
  exact congruent_wrap a ht hm

theorem toLiteral (h : v.Congruent n) :
    Yields (fun w => ∃ m, w.literal.toInt? = some m ∧ m ≡ n [ZMOD 2 ^ 32]) v.toLiteral := by
  obtain ⟨m, t, hv, hm⟩ := h
  cases v with
  | integer i s =>
    cases hv
    simp only [Value.toLiteral]
    split
    · next w hw => exact Yields.ok ⟨m, (TypedLiteral.toInt?_of_integerAs? hw).1, hm⟩
    · exact Yields.error _ _
  | char c | bool b =>
    cases hv
    exact Yields.ok ⟨_, rfl, hm⟩
  | floating | string => cases hv

end Congruent

theorem congruent_ofLiteral {x : TypedLiteral} (h : x.literal.toInt? = some n) : (ofLiteral x).Congruent n := by
  obtain ⟨l, t⟩ := x
  cases l with
  | int i | uint i => exact congruent_integer t (by cases h; rfl)
  | char c | bool b =>
    cases h
    exact ⟨_, _, rfl, rfl⟩
  | single | double | string => cases h

end Value

variable {ctx : EvalContext} {e : Expr}

theorem Expr.Whole.congruent (a : Arithmetic) (h : e.Whole ctx n) : Yields (Value.Congruent n) (e.valueIn a ctx) := by
  -- By induction on what the expression stands for. Each operation keeps congruence, as its operands are promoted
  -- first and the width of the result is at least 32.
  induction h with
  | integer l => exact (Value.yields_ofInteger_integer a l).imp fun v ⟨t, hv⟩ => hv ▸ Value.congruent_integer t rfl
  | char c => exact Yields.ok ⟨_, _, rfl, rfl⟩
  | bool b => exact Yields.ok ⟨_, _, rfl, rfl⟩
  | ident hv hn =>
    rw [valueIn, hv]
    exact Yields.ok (Value.congruent_ofLiteral hn)
  | plus _ ih => exact ih.bind fun v hv => hv.plus a
  | neg _ ih => exact ih.bind fun v hv => hv.neg a
  | bitwiseNot _ ih => exact ih.bind fun v hv => hv.bitwiseNot a
  | add _ _ ihe ihf =>
    exact ihe.bind fun v hv => ihf.bind fun w hw => hv.binary a hw fun hs ht hi hj =>
      Value.congruent_kept a (hs.later ht) (hi.add hj)
  | sub _ _ ihe ihf =>
    exact ihe.bind fun v hv => ihf.bind fun w hw => hv.binary a hw fun hs ht hi hj =>
      Value.congruent_kept a (hs.later ht) (hi.sub hj)
  | mul _ _ ihe ihf => exact ihe.bind fun v hv => ihf.bind fun w hw => hv.mul a hw
  | bitwiseAnd _ _ ihe ihf =>
    exact ihe.bind fun v hv => ihf.bind fun w hw => hv.binary a hw fun hs ht hi hj =>
      Value.congruent_result a (hs.later ht) (Bits.and_modEq hi hj)
  | bitwiseOr _ _ ihe ihf =>
    exact ihe.bind fun v hv => ihf.bind fun w hw => hv.binary a hw fun hs ht hi hj =>
      Value.congruent_result a (hs.later ht) (Bits.or_modEq hi hj)
  | bitwiseXor _ _ ihe ihf =>
    exact ihe.bind fun v hv => ihf.bind fun w hw => hv.binary a hw fun hs ht hi hj =>
      Value.congruent_result a (hs.later ht) (Bits.xor_modEq hi hj)
  | @shiftLeft e m l hl _ ih =>
    refine ih.bind fun v hv => (Value.yields_ofInteger_integer a l).bind fun w ⟨t, hw⟩ => ?_
    subst hw
    exact hv.shiftLeft a hl t
  | @cast target t e n ht hwide _ ih =>
    refine ih.bind fun v hv => ?_
    rw [ht]
    exact hv.cast a hwide.isPromoted target

theorem Expr.evaluate_modEq_whole (h : e.Whole ctx n) {v : TypedLiteral} (hv : e.evaluate ctx = .ok v) :
    ∃ m, v.literal.toInt? = some m ∧ m ≡ n [ZMOD 2 ^ 32] :=
  ((h.congruent .words).bind fun _ hw => hw.toLiteral) v hv

def allOnes : EvalContext :=
  ⟨fun name => if name = "A" then .found ⟨.uint 0xffffffff, .uint32⟩ else .unknown, CastTarget.ofSpelling⟩

def wrapping : Expr :=
  .binary .bitwiseOr
    (.cast "int" false (.binary .sub (.unary .neg (.ident "A")) (.integer ⟨5, .int32, false⟩)))
    (.binary .shiftLeft (.bool true) (.integer ⟨40, .int32, false⟩))

theorem evaluate_modEq_whole_of_wrapping :
    wrapping.Whole allOnes (-0x100000004) ∧ wrapping.evaluate allOnes = .ok ⟨.int (-4), .int64⟩ ∧
      ∃ m, (Literal.int (-4)).toInt? = some m ∧ m ≡ -0x100000004 [ZMOD 2 ^ 32] := by
  have hwhole : wrapping.Whole allOnes (-0x100000004) := by
    have hname : (Expr.ident "A").Whole allOnes 0xffffffff := .ident rfl rfl
    have hcast : (Expr.cast "int" false _).Whole allOnes (-0xffffffff - 5) :=
      .cast (t := .int32) rfl (.inl rfl) (.sub (.neg hname) (.integer ⟨5, .int32, false⟩))
    have hshift : (Expr.binary .shiftLeft (.bool true) (.integer ⟨40, .int32, false⟩)).Whole allOnes (1 * 2 ^ 40) :=
      .shiftLeft (by decide) (.bool true)
    have hlor : (-0xffffffff - 5 : Int).lor (1 * 2 ^ 40) = -0x100000004 := by
      rw [← Bits.or_eq_lor]
      decide
    rw [← hlor]
    exact .bitwiseOr hcast hshift
  have hvalue : wrapping.evaluate allOnes = .ok ⟨.int (-4), .int64⟩ := by decide
  exact ⟨hwhole, hvalue, Expr.evaluate_modEq_whole hwhole hvalue⟩

end HeaderBinding
