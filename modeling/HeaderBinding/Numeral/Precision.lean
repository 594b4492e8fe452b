namespace HeaderBinding.Numeral

open Float.Model (UnpackedFloat)

def roundTo (format : Float.Model.Format) : UnpackedFloat → UnpackedFloat
  | .finite s m e _ => .round format s m e
  | x => x

def widen (x : Float32) : Float :=
  .ofModel (.pack (roundTo .binary64 x.toModel.unpack))

def narrow (x : Float) : Float32 :=
  .ofModel (.pack (roundTo .binary32 x.toModel.unpack))

def wholePart (low high : Int) (x : Float) : Int :=
  max low (min high (x.toModel.unpack.toInt low high))

def ofInt (n : Int) : Float :=
  .ofModel (.ofInt n)

def sameDouble (x y : Float) : Bool :=
  x == y || (x.isNaN && y.isNaN)

def sameSingle (x y : Float32) : Bool :=
  x == y || (x.isNaN && y.isNaN)

def hexPadded (width n : Nat) : String :=
  let digits := Nat.toDigits 16 n
  String.ofList (List.replicate (width - digits.length) '0' ++ digits)

end HeaderBinding.Numeral
