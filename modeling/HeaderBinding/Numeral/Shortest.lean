namespace HeaderBinding.Numeral

open Float.Model (Format)

structure Decimal where
  coefficient : Nat
  exponent : Int
  deriving DecidableEq, Repr

inductive Tie where
  | up
  | toEven
  deriving DecidableEq, Repr

structure Neighbourhood where
  low : Nat
  value : Nat
  high : Nat
  exponent : Int
  closed : Bool

def neighbourhood (format : Format) (mantissa : Nat) (exponent : Int) : Neighbourhood :=
  let below := if mantissa = 1 <<< (format.mantissaBits - 1) ∧ format.minExponent < exponent then 1 else 2
  ⟨4 * mantissa - below, 4 * mantissa, 4 * mantissa + 2, exponent, mantissa % 2 == 0⟩

def scaled (n : Nat) (binary decimal : Int) : Nat × Nat :=
  ((n <<< binary.toNat) * Nat.pow 10 (-decimal).toNat, (4 <<< (-binary).toNat) * Nat.pow 10 decimal.toNat)

def Neighbourhood.contains (h : Neighbourhood) (d : Decimal) : Bool :=
  let (low, unit) := scaled h.low h.exponent d.exponent
  let (high, _) := scaled h.high h.exponent d.exponent
  let point := d.coefficient * unit
  if h.closed then low ≤ point && point ≤ high else low < point && point < high

def Neighbourhood.onGrid? (tie : Tie) (h : Neighbourhood) (grid : Int) : Option Decimal :=
  let (value, unit) := scaled h.value h.exponent grid
  let below : Decimal := ⟨value / unit, grid⟩
  let above : Decimal := ⟨value / unit + 1, grid⟩
  match h.contains below, h.contains above with
  | false, false => none
  | true, false => some below
  | false, true => some above
  | true, true =>
    let rest := value % unit
    if 2 * rest < unit then some below
    else if unit < 2 * rest then some above
    else match tie with
      | .up => some above
      | .toEven => if below.coefficient % 2 == 0 then some below else some above

def Neighbourhood.exact (h : Neighbourhood) : Decimal :=
  if 0 ≤ h.exponent then ⟨(h.value / 4) <<< h.exponent.toNat, 0⟩
  else ⟨h.value / 4 * Nat.pow 5 (-h.exponent).toNat, h.exponent⟩

def Neighbourhood.coarsest (tie : Tie) (h : Neighbourhood) : Nat → Int → Decimal
  | 0, _ => h.exact
  | steps + 1, grid =>
    match h.onGrid? tie grid with
    | some d => d
    | none => h.coarsest tie steps (grid - 1)

def shortest (tie : Tie) (format : Format) (mantissa : Nat) (exponent : Int) : Decimal :=
  let h := neighbourhood format mantissa exponent
  let top := (Float.Model.totalExponent mantissa exponent * 1233) / 4096 + 2
  h.coarsest tie (top - min exponent 0 + 1).toNat top

end HeaderBinding.Numeral
