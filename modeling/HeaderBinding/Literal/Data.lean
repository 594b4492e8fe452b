import HeaderBinding.Json.Decode
import HeaderBinding.Literal.Basic

namespace HeaderBinding

namespace LiteralType

def toJson (t : LiteralType) : Json :=
  .string t.word

def ofJson (form : Json.Form) (j : Json) : Decoded LiteralType := do
  let w ← j.toVariant form (all.map word)
  match ofWord? w with
  | some t => pure t
  | none => throw (.unknownVariant w)

end LiteralType

namespace Literal

def words : List String :=
  ["int", "u_int", "single", "double", "char", "string", "bool"]

def word : Literal → String
  | .int _ => "int"
  | .uint _ => "u_int"
  | .single _ => "single"
  | .double _ => "double"
  | .char _ => "char"
  | .string _ => "string"
  | .bool _ => "bool"

def contentJson : Literal → Json
  | .int n => .integer n.toInt
  | .uint n => .integer n.toNat
  | .single x => .single x
  | .double x => .double x
  | .char c => .string c.toString
  | .string s => .string s
  | .bool b => .bool b

def toJson (l : Literal) : Json :=
  .object [("kind", .string l.word), ("value", l.contentJson)]

def ofContent (word : String) (j : Json) : Decoded Literal :=
  match word with
  | "int" => (j.toInteger Int64.minValue.toInt Int64.maxValue.toInt).map fun n => .int (Int64.ofInt n)
  | "u_int" => (j.toInteger 0 (UInt64.size - 1)).map fun n => .uint (UInt64.ofInt n)
  | "single" => j.toSingle.map .single
  | "double" => j.toDouble.map .double
  | "char" => j.toCharacter.map .char
  | "string" => j.toText.map .string
  | "bool" => j.toBool.map .bool
  | w => .error (.unknownVariant w)

def ofJson (form : Json.Form) (j : Json) : Decoded Literal :=
  j.toAdjacent form "kind" "value" words fun word _ => ofContent word

end Literal

namespace TypedLiteral

def toJson (v : TypedLiteral) : Json :=
  .object [("literal", v.literal.toJson), ("type", v.type.toJson)]

def fields (form : Json.Form) : List (Json.Field TypedLiteral) :=
  [Json.need "literal" (Literal.ofJson form) fun l v => { v with literal := l },
   Json.need "type" (LiteralType.ofJson form) fun t v => { v with type := t }]

def ofJson (form : Json.Form) (j : Json) : Decoded TypedLiteral :=
  j.toRecord form (fields form) (.ofBool false)

end TypedLiteral

end HeaderBinding
