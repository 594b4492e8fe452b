namespace HeaderBinding.Digest

def prime1 : UInt64 := 0x9E3779B185EBCA87
def prime2 : UInt64 := 0xC2B2AE3D27D4EB4F
def prime3 : UInt64 := 0x165667B19E3779F9
def prime4 : UInt64 := 0x85EBCA77C2B2AE63
def prime5 : UInt64 := 0x27D4EB2F165667C5

def rotate (x : UInt64) (r : UInt64) : UInt64 :=
  (x <<< r) ||| (x >>> (64 - r))

def littleEndian : Nat → List UInt8 → UInt64
  | 0, _ => 0
  | _ + 1, [] => 0
  | n + 1, b :: rest => b.toUInt64 ||| (littleEndian n rest <<< 8)

def round (lane word : UInt64) : UInt64 :=
  rotate (lane + word * prime2) 31 * prime1

structure Lanes where
  first : UInt64
  second : UInt64
  third : UInt64
  fourth : UInt64

def Lanes.start : Lanes :=
  ⟨prime1 + prime2, prime2, 0, 0 - prime1⟩

def Lanes.absorb (l : Lanes) (bytes : List UInt8) : Lanes :=
  ⟨round l.first (littleEndian 8 bytes),
   round l.second (littleEndian 8 (bytes.drop 8)),
   round l.third (littleEndian 8 (bytes.drop 16)),
   round l.fourth (littleEndian 8 (bytes.drop 24))⟩

def Lanes.merge (h lane : UInt64) : UInt64 :=
  (h ^^^ round 0 lane) * prime1 + prime4

def Lanes.fold (l : Lanes) : UInt64 :=
  let h := rotate l.first 1 + rotate l.second 7 + rotate l.third 12 + rotate l.fourth 18
  merge (merge (merge (merge h l.first) l.second) l.third) l.fourth

def stripes (l : Lanes) (bytes : List UInt8) : Lanes × List UInt8 :=
  if 32 ≤ bytes.length then stripes (l.absorb bytes) (bytes.drop 32) else (l, bytes)
termination_by bytes.length
decreasing_by simp; omega

def absorbBytes (h : UInt64) : List UInt8 → UInt64
  | [] => h
  | b :: rest => absorbBytes (rotate (h ^^^ (b.toUInt64 * prime5)) 11 * prime1) rest

def absorbHalf (h : UInt64) (bytes : List UInt8) : UInt64 :=
  if 4 ≤ bytes.length then
    absorbBytes (rotate (h ^^^ (littleEndian 4 bytes * prime1)) 23 * prime2 + prime3) (bytes.drop 4)
  else absorbBytes h bytes

def absorbWords (h : UInt64) (bytes : List UInt8) : UInt64 :=
  if 8 ≤ bytes.length then
    absorbWords (rotate (h ^^^ round 0 (littleEndian 8 bytes)) 27 * prime1 + prime4) (bytes.drop 8)
  else absorbHalf h bytes
termination_by bytes.length
decreasing_by simp; omega

def avalanche (h : UInt64) : UInt64 :=
  let h := (h ^^^ (h >>> 33)) * prime2
  let h := (h ^^^ (h >>> 29)) * prime3
  h ^^^ (h >>> 32)

def ofBytes (bytes : List UInt8) : UInt64 :=
  let start :=
    if 32 ≤ bytes.length then
      let (lanes, rest) := stripes .start bytes
      (lanes.fold, rest)
    else (prime5, bytes)
  avalanche (absorbWords (start.1 + bytes.length.toUInt64) start.2)

def ofString (s : String) : UInt64 :=
  ofBytes s.toUTF8.data.toList

end HeaderBinding.Digest
