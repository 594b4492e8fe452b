import HeaderBinding.Literal.Type
import HeaderBinding.Numeral.Layout
import HeaderBinding.Numeral.Precision
import HeaderBinding.Text.Quoted

namespace HeaderBinding

inductive Literal where
  | int (n : Int64)
  | uint (n : UInt64)
  | single (x : Float32)
  | double (x : Float)
  | char (c : Char)
  | string (s : String)
  | bool (b : Bool)
  deriving DecidableEq

namespace Literal

def toInt? : Literal → Option Int
  | .int n => some n.toInt
  | .uint n => some n.toNat
  | .char c => some c.toNat
  | .bool b => some (if b then 1 else 0)
  | .single _ | .double _ | .string _ => none

def toDouble? : Literal → Option Float
  | .single x => some (Numeral.widen x)
  | .double x => some x
  | l => l.toInt?.map Numeral.ofInt

def text : Literal → String
  | .int n => toString n.toInt
  | .uint n => toString n.toNat
  | .single x => Numeral.Layout.plain.single x
  | .double x => Numeral.Layout.plain.double x
  | .char c => Text.quoteChar c
  | .string s => Text.quoteString s
  | .bool b => if b then "true" else "false"

def same : Literal → Literal → Bool
  | .int m, .int n => m == n
  | .uint m, .uint n => m == n
  | .single x, .single y => Numeral.sameSingle x y
  | .double x, .double y => Numeral.sameDouble x y
  | .char c, .char d => c == d
  | .string s, .string t => s == t
  | .bool a, .bool b => a == b
  | _, _ => false

end Literal

structure TypedLiteral where
  literal : Literal
  type : LiteralType
  deriving DecidableEq

namespace TypedLiteral

def integerAs? (n : Int) (t : LiteralType) : Option TypedLiteral :=
  if t.holds n then
    some ⟨if t.isUnsigned then .uint (UInt64.ofInt n) else .int (Int64.ofInt n), t⟩
  else none

def integer? (n : Int) : Option TypedLiteral :=
  (LiteralType.narrowest? n).bind (integerAs? n)

def ofString (s : String) : TypedLiteral := ⟨.string s, .string⟩

def ofChar (c : Char) : TypedLiteral := ⟨.char c, .char⟩

def ofBool (b : Bool) : TypedLiteral := ⟨.bool b, .boolean⟩

def ofDouble (x : Float) : TypedLiteral := ⟨.double x, .double⟩

def ofSingle (x : Float32) : TypedLiteral := ⟨.single x, .single⟩

def narrowedTo? (v : TypedLiteral) (t : LiteralType) : Option TypedLiteral :=
  v.literal.toInt?.bind (integerAs? · t)

def text (v : TypedLiteral) : String :=
  v.literal.text ++ " (" ++ v.type.managedName ++ ")"

def same (v w : TypedLiteral) : Bool :=
  v.literal.same w.literal && v.type == w.type

def WellFormed (v : TypedLiteral) : Prop :=
  match v.literal with
  | .int n => v.type.isUnsigned = false ∧ v.type.holds n.toInt = true
  | .uint n => v.type.isUnsigned = true ∧ v.type.holds n.toNat = true
  | .single _ => v.type = .single
  | .double _ => v.type = .double
  | .char _ => v.type = .char
  | .string _ => v.type = .string
  | .bool _ => v.type = .boolean

end TypedLiteral

end HeaderBinding
