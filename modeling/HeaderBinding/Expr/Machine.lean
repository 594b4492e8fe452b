import HeaderBinding.Expr.Eval
import Mathlib.Algebra.Ring.Int.Defs

namespace HeaderBinding

abbrev Machine (α : Type) := ExceptT EvalError Option α

namespace Machine

def done {α : Type} (r : Except EvalError α) : Machine α :=
  ExceptT.mk (some r)

def halt {α : Type} : Machine α :=
  ExceptT.mk none

def leastWord : Int := -2 ^ 127

def isWord (n : Int) : Bool :=
  leastWord ≤ n && n < 2 ^ 127

def word (n : Int) : Machine Int :=
  if isWord n then pure n else halt

def neg (n : Int) : Machine Int :=
  word (-n)

def complement (n : Int) : Machine Int :=
  word (Bits.not n)

def add (m n : Int) : Machine Int :=
  word (m + n)

def sub (m n : Int) : Machine Int :=
  word (m - n)

def shiftLeft (m : Int) (amount : Nat) : Machine Int :=
  if amount < 128 then word (m <<< amount) else halt

def shiftRight (m : Int) (amount : Nat) : Machine Int :=
  if amount < 128 then word (m >>> amount) else halt

def quotient (m n : Int) : Machine Int :=
  if n = 0 then halt else word (m.tdiv n)

def remainder (m n : Int) : Machine Int :=
  if n = 0 ∨ (m = leastWord ∧ n = -1) then halt else word (m.tmod n)

def residue (m n : Int) : Machine Int :=
  if n = 0 ∨ (m = leastWord ∧ n = -1) then halt else word (m % n)

def wrap (t : LiteralType) (n : Int) : Machine Int :=
  match t.width? with
  | none => throw .outOfRange
  | some width => do
    let modulus ← shiftLeft 1 width
    let rest ← residue n modulus
    let half ← quotient modulus 2
    if !t.isUnsigned && half ≤ rest then sub rest modulus else pure rest

def result (n : Int) (floor : LiteralType) : Machine Value :=
  if floor.holds n then pure (.integer n floor)
  else if n < 0 ∧ floor.isUnsigned then
    return .integer (← wrap floor n) floor
  else
    match LiteralType.widening.find? fun t => floor.rank ≤ t.rank && t.holds n with
    | some t => pure (.integer n t)
    | none => throw .outOfRange

def ofInteger (l : IntegerLiteral) : Machine Value := do
  match ← result l.value.toNat l.floor with
  | .integer n t => pure (.integer n (if l.unsigned && !t.isUnsigned then .uint64 else t))
  | v => pure v

def unary (op : UnaryOp) (v : Value) : Machine Value :=
  match v.promoted? with
  | none => done (v.unary .exact op)
  | some (n, t) =>
    match op with
    | .neg => do result (← neg n) t
    | .plus => result n t
    | .logicalNot => pure (.flag (n == 0))
    | .bitwiseNot => do
      let inverted ← complement n
      return .integer (← wrap t inverted) t

def binaryInteger (op : BinaryOp) (m n : Int) (s t : LiteralType) : Machine Value :=
  let type := s.later t
  match op with
  | .add => do result (← add m n) type
  | .sub => do result (← sub m n) type
  | .mul => if isWord (m * n) then result (m * n) type else throw .outOfRange
  | .div => if n = 0 then throw .divisionByZero else do result (← quotient m n) type
  | .mod => if n = 0 then throw .divisionByZero else do result (← remainder m n) type
  | .shiftLeft => do
    let amount ← done (Value.shiftAmount n)
    result (← shiftLeft m amount) s
  | .shiftRight => do
    let amount ← done (Value.shiftAmount n)
    result (← shiftRight m amount) s
  | .bitwiseAnd => do result (← word (Bits.and m n)) type
  | .bitwiseOr => do result (← word (Bits.or m n)) type
  | .bitwiseXor => do result (← word (Bits.xor m n)) type
  | .equal | .notEqual | .less | .lessEqual | .greater | .greaterEqual | .logicalAnd | .logicalOr =>
    done (Value.binaryInteger .exact op m n s t)

def binary (op : BinaryOp) (v w : Value) : Machine Value :=
  if v.isFloating || w.isFloating then done (v.binary .exact op w)
  else
    match v.promoted?, w.promoted? with
    | some (m, s), some (n, t) => binaryInteger op m n s t
    | _, _ => done (v.binary .exact op w)

def cast (denoted : CastTarget) (target : String) (pointer : Bool) (v : Value) : Machine Value :=
  match pointer, denoted with
  | false, .integer t => do
    let n ← done (Value.castSource target v)
    return .integer (← wrap t n) t
  | _, _ => done (v.cast .exact denoted target pointer)

def value (ctx : EvalContext) : Expr → Machine Value
  | .integer l => ofInteger l
  | .unary op operand => do
    let v ← value ctx operand
    unary op v
  | .binary .logicalAnd left right => do
    let v ← value ctx left
    if !(← done v.truth) then return .flag false
    let w ← value ctx right
    return .flag (← done w.truth)
  | .binary .logicalOr left right => do
    let v ← value ctx left
    if ← done v.truth then return .flag true
    let w ← value ctx right
    return .flag (← done w.truth)
  | .binary op left right => do
    let v ← value ctx left
    let w ← value ctx right
    binary op v w
  | .ternary condition thenExpr elseExpr => do
    let v ← value ctx condition
    if ← done v.truth then value ctx thenExpr else value ctx elseExpr
  | .cast target pointer operand => do
    let v ← value ctx operand
    cast (ctx.target target) target pointer v
  | .floating x single => pure (.floating x single)
  | .char c => pure (.char c)
  | .string s => pure (.string s)
  | .bool b => pure (.bool b)
  | .ident name => done (Expr.ofLookup name (ctx.value name))

def successor (v : TypedLiteral) : Machine TypedLiteral :=
  match v.literal.toInt? with
  | none => throw (.unsupportedOperator ("implicit successor of " ++ v.text))
  | some n => do
    let next ← add n 1
    match TypedLiteral.integerAs? next v.type <|> TypedLiteral.integer? next with
    | some w => pure w
    | none => throw .outOfRange

end Machine

end HeaderBinding
