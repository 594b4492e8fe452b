import HeaderBinding.Numeral.Shortest

namespace HeaderBinding.Numeral

open Float.Model (Format UnpackedFloat)

structure Layout where
  tie : Tie
  positional : Option (Int × Int)
  whole : String

def Layout.plain : Layout := ⟨.up, none, ""⟩

def Layout.doubleData : Layout := ⟨.toEven, some (-5, 15), ".0"⟩

def Layout.singleData : Layout := ⟨.toEven, some (-6, 12), ".0"⟩

def zeros (n : Nat) : List Char :=
  List.replicate n '0'

def placePoint (whole : String) (digits : List Char) (point : Int) : List Char :=
  if point ≤ 0 then '0' :: '.' :: (zeros (-point).toNat ++ digits)
  else if digits.length ≤ point then digits ++ zeros (point.toNat - digits.length) ++ whole.toList
  else digits.take point.toNat ++ '.' :: digits.drop point.toNat

def withExponent (digits : List Char) (place : Int) : List Char :=
  let lead := match digits with
    | [] => []
    | [d] => [d]
    | d :: rest => d :: '.' :: rest
  let sign := if place < 0 then '-' else '+'
  lead ++ 'e' :: sign :: Nat.toDigits 10 place.natAbs

def Layout.isPositional (l : Layout) (place : Int) : Bool :=
  match l.positional with
  | none => true
  | some (low, high) => low ≤ place && place ≤ high

def Layout.decimal (l : Layout) (d : Decimal) : List Char :=
  let digits := Nat.toDigits 10 d.coefficient
  let point := digits.length + d.exponent
  if l.isPositional (point - 1) then placePoint l.whole digits point
  else withExponent digits (point - 1)

def signText : UnpackedFloat.Sign → String
  | .positive => ""
  | .negative => "-"

def Layout.unpacked (l : Layout) (format : Format) : UnpackedFloat → String
  | .notANumber => "NaN"
  | .infinity s => signText s ++ "inf"
  | .zero s => signText s ++ "0" ++ l.whole
  | .finite s m e _ => signText s ++ String.ofList (l.decimal (shortest l.tie format m e))

def Layout.double (l : Layout) (x : Float) : String :=
  l.unpacked .binary64 x.toModel.unpack

def Layout.single (l : Layout) (x : Float32) : String :=
  l.unpacked .binary32 x.toModel.unpack

end HeaderBinding.Numeral
