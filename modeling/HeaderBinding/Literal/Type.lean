namespace HeaderBinding

inductive LiteralType where
  | sbyte
  | byte
  | int16
  | uint16
  | int32
  | uint32
  | int64
  | uint64
  | single
  | double
  | char
  | string
  | boolean
  deriving DecidableEq, Repr

namespace LiteralType

def all : List LiteralType :=
  [.sbyte, .byte, .int16, .uint16, .int32, .uint32, .int64, .uint64, .single, .double, .char, .string,
    .boolean]

def managedName : LiteralType → String
  | .sbyte => "SByte"
  | .byte => "Byte"
  | .int16 => "Int16"
  | .uint16 => "UInt16"
  | .int32 => "Int32"
  | .uint32 => "UInt32"
  | .int64 => "Int64"
  | .uint64 => "UInt64"
  | .single => "Single"
  | .double => "Double"
  | .char => "Char"
  | .string => "String"
  | .boolean => "Boolean"

def word : LiteralType → String
  | .sbyte => "s_byte"
  | .byte => "byte"
  | .int16 => "int16"
  | .uint16 => "u_int16"
  | .int32 => "int32"
  | .uint32 => "u_int32"
  | .int64 => "int64"
  | .uint64 => "u_int64"
  | .single => "single"
  | .double => "double"
  | .char => "char"
  | .string => "string"
  | .boolean => "boolean"

def ofWord? (w : String) : Option LiteralType :=
  all.find? (·.word == w)

def rank : LiteralType → Nat
  | .sbyte => 0
  | .byte => 1
  | .int16 => 2
  | .uint16 => 3
  | .int32 => 4
  | .uint32 => 5
  | .int64 => 6
  | .uint64 => 7
  | .single => 8
  | .double => 9
  | .char => 10
  | .string => 11
  | .boolean => 12

def later (s t : LiteralType) : LiteralType :=
  if s.rank ≤ t.rank then t else s

def width? : LiteralType → Option Nat
  | .sbyte | .byte => some 8
  | .int16 | .uint16 => some 16
  | .int32 | .uint32 => some 32
  | .int64 | .uint64 => some 64
  | .single | .double | .char | .string | .boolean => none

def isInteger (t : LiteralType) : Bool :=
  t.width?.isSome

def isUnsigned : LiteralType → Bool
  | .byte | .uint16 | .uint32 | .uint64 => true
  | _ => false

def modulus (bits : Nat) : Nat :=
  1 <<< bits

def range? (t : LiteralType) : Option (Int × Int) :=
  t.width?.map fun w =>
    if t.isUnsigned then (0, modulus w - 1) else (-modulus (w - 1), modulus (w - 1) - 1)

def holds (t : LiteralType) (n : Int) : Bool :=
  match t.range? with
  | some (low, high) => low ≤ n && n ≤ high
  | none => false

def widening : List LiteralType :=
  [.int32, .uint32, .int64, .uint64]

def narrowest? (n : Int) : Option LiteralType :=
  widening.find? (·.holds n)

def wrap? (t : LiteralType) (n : Int) : Option Int :=
  t.width?.map fun w => if t.isUnsigned then n % modulus w else n.bmod (modulus w)

end LiteralType

end HeaderBinding
