import HeaderBinding.Literal.Type
import HeaderBinding.Native.Builtin

namespace HeaderBinding.Managed

inductive Primitive where
  | void
  | boolean
  | byte
  | sbyte
  | char
  | int16
  | uint16
  | int32
  | uint32
  | int64
  | uint64
  | single
  | double
  | intPtr
  deriving DecidableEq, Repr

namespace Primitive

def all : List Primitive :=
  [.void, .boolean, .byte, .sbyte, .char, .int16, .uint16, .int32, .uint32, .int64, .uint64, .single,
    .double, .intPtr]

def name : Primitive → String
  | .void => "Void"
  | .boolean => "Boolean"
  | .byte => "Byte"
  | .sbyte => "SByte"
  | .char => "Char"
  | .int16 => "Int16"
  | .uint16 => "UInt16"
  | .int32 => "Int32"
  | .uint32 => "UInt32"
  | .int64 => "Int64"
  | .uint64 => "UInt64"
  | .single => "Single"
  | .double => "Double"
  | .intPtr => "IntPtr"

def ofName? (name : String) : Option Primitive :=
  all.find? (·.name == name)

def ofLiteralType? : LiteralType → Option Primitive
  | .sbyte => some .sbyte
  | .byte => some .byte
  | .int16 => some .int16
  | .uint16 => some .uint16
  | .int32 => some .int32
  | .uint32 => some .uint32
  | .int64 => some .int64
  | .uint64 => some .uint64
  | .single => some .single
  | .double => some .double
  | .char => some .char
  | .boolean => some .boolean
  | .string => none

end Primitive

structure PrimitiveTable where
  entries : List (Builtin × Primitive)
  deriving DecidableEq, Repr

namespace PrimitiveTable

def empty : PrimitiveTable := ⟨[]⟩

def get? (t : PrimitiveTable) (b : Builtin) : Option Primitive :=
  t.entries.lookup b

def insert (t : PrimitiveTable) (b : Builtin) (p : Primitive) : PrimitiveTable :=
  ⟨(b, p) :: t.entries.filter (·.1 != b)⟩

def size (t : PrimitiveTable) : Nat :=
  t.entries.length

def ofKind : BuiltinKind → Primitive × Primitive
  | .void => (.void, .void)
  | .boolean => (.boolean, .boolean)
  | .char => (.sbyte, .byte)
  | .wideChar => (.char, .char)
  | .byte => (.byte, .byte)
  | .int16 => (.int16, .uint16)
  | .int32 => (.int32, .uint32)
  | .int64 => (.int64, .uint64)
  | .float => (.single, .single)
  | .double => (.double, .double)

def standard : PrimitiveTable :=
  ⟨BuiltinKind.all.flatMap fun k => [(⟨k, false⟩, (ofKind k).1), (⟨k, true⟩, (ofKind k).2)]⟩

end PrimitiveTable

end HeaderBinding.Managed
