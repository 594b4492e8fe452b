import HeaderBinding.Literal.Basic
import HeaderBinding.Native.Builtin

namespace HeaderBinding

inductive Lookup where
  | found (v : TypedLiteral)
  | pending
  | unknown
  deriving DecidableEq

inductive CastTarget where
  | notAType
  | integer (t : LiteralType)
  | floating (single : Bool)
  | boolean
  | noLiteral
  deriving DecidableEq, Repr

namespace CastTarget

def ofBuiltin (b : Builtin) : CastTarget :=
  match b.kind, b.isUnsigned with
  | .void, _ => .noLiteral
  | .boolean, _ => .boolean
  | .char, true => .integer .byte
  | .char, false => .integer .sbyte
  | .byte, _ => .integer .byte
  | .wideChar, _ => .integer .uint16
  | .int16, true => .integer .uint16
  | .int16, false => .integer .int16
  | .int32, true => .integer .uint32
  | .int32, false => .integer .int32
  | .int64, true => .integer .uint64
  | .int64, false => .integer .int64
  | .float, _ => .floating true
  | .double, _ => .floating false

def ofSpelling (name : String) : CastTarget :=
  match Builtin.ofSpelling? name with
  | some b => ofBuiltin b
  | none => .notAType

end CastTarget

structure EvalContext where
  value : String → Lookup
  target : String → CastTarget

namespace EvalContext

def empty : EvalContext :=
  ⟨fun _ => .unknown, CastTarget.ofSpelling⟩

def isType (ctx : EvalContext) (name : String) : Bool :=
  ctx.target name != .notAType

end EvalContext

end HeaderBinding
