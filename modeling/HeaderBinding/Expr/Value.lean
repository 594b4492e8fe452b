import HeaderBinding.Expr.Basic
import HeaderBinding.Expr.Bits
import HeaderBinding.Expr.Context
import HeaderBinding.Expr.Error

namespace HeaderBinding

inductive Arithmetic where
  | words
  | exact
  deriving DecidableEq, Repr

namespace Arithmetic

def keep : Arithmetic → Int → Int
  | .words, n => n.bmod (LiteralType.modulus 128)
  | .exact, n => n

def product? (a : Arithmetic) (m n : Int) : Option Int :=
  if a.keep (m * n) = m * n then some (m * n) else none

def wrap? (a : Arithmetic) (t : LiteralType) (n : Int) : Option Int :=
  (t.wrap? n).map a.keep

end Arithmetic

inductive Value where
  | integer (n : Int) (type : LiteralType)
  | floating (x : Float) (single : Bool)
  | char (c : Char)
  | string (s : String)
  | bool (b : Bool)
  deriving DecidableEq

namespace Value

def unsupported {α : Type} (token : String) : Except EvalError α :=
  .error (.unsupportedOperator token)

def ofLiteral (v : TypedLiteral) : Value :=
  match v.literal with
  | .int n => .integer n.toInt v.type
  | .uint n => .integer n.toNat v.type
  | .single x => .floating (Numeral.widen x) true
  | .double x => .floating x false
  | .char c => .char c
  | .string s => .string s
  | .bool b => .bool b

def toLiteral : Value → Except EvalError TypedLiteral
  | .integer n t =>
    match TypedLiteral.integerAs? n t with
    | some v => .ok v
    | none => .error .outOfRange
  | .floating x true => .ok (.ofSingle (Numeral.narrow x))
  | .floating x false => .ok (.ofDouble x)
  | .char c => .ok (.ofChar c)
  | .string s => .ok (.ofString s)
  | .bool b => .ok (.ofBool b)

def promoted? : Value → Option (Int × LiteralType)
  | .integer n t => some (n, t.later .int32)
  | .char c => some (c.toNat, .int32)
  | .bool b => some (if b then 1 else 0, .int32)
  | .floating _ _ | .string _ => none

def number? : Value → Option (Float × Bool)
  | .floating x single => some (x, single)
  | v => v.promoted?.map fun (n, _) => (Numeral.ofInt n, true)

def isFloating : Value → Bool
  | .floating _ _ => true
  | _ => false

def truth : Value → Except EvalError Bool
  | .floating x _ => .ok (x != 0)
  | .string _ => unsupported "string in condition"
  | v => .ok (v.promoted?.any fun (n, _) => n != 0)

def flag (b : Bool) : Value :=
  .integer (if b then 1 else 0) .int32

def result (a : Arithmetic) (n : Int) (floor : LiteralType) : Except EvalError Value :=
  if floor.holds n then .ok (.integer n floor)
  else if n < 0 ∧ floor.isUnsigned then
    match a.wrap? floor n with
    | some m => .ok (.integer m floor)
    | none => .error .outOfRange
  else
    match LiteralType.widening.find? fun t => floor.rank ≤ t.rank && t.holds n with
    | some t => .ok (.integer n t)
    | none => .error .outOfRange

def ofInteger (a : Arithmetic) (l : IntegerLiteral) : Except EvalError Value :=
  match result a l.value.toNat l.floor with
  | .ok (.integer n t) => .ok (.integer n (if l.unsigned && !t.isUnsigned then .uint64 else t))
  | r => r

def unary (a : Arithmetic) (op : UnaryOp) (v : Value) : Except EvalError Value :=
  match v with
  | .floating x single =>
    match op with
    | .neg => .ok (.floating (-x) single)
    | .plus => .ok (.floating x single)
    | .logicalNot => .ok (flag (x == 0))
    | .bitwiseNot => unsupported "~ on floating value"
  | v =>
    match v.promoted? with
    | none => unsupported (op.name ++ " on string")
    | some (n, t) =>
      match op with
      | .neg => result a (a.keep (-n)) t
      | .plus => result a n t
      | .logicalNot => .ok (flag (n == 0))
      | .bitwiseNot =>
        match a.wrap? t (Bits.not n) with
        | some m => .ok (.integer m t)
        | none => .error .outOfRange

def shiftAmount (n : Int) : Except EvalError Nat :=
  if 0 ≤ n ∧ n < 64 then .ok n.toNat else .error .outOfRange

def binaryInteger (a : Arithmetic) (op : BinaryOp) (m n : Int) (s t : LiteralType) :
    Except EvalError Value :=
  let type := s.later t
  match op with
  | .add => result a (a.keep (m + n)) type
  | .sub => result a (a.keep (m - n)) type
  | .mul =>
    match a.product? m n with
    | some p => result a p type
    | none => .error .outOfRange
  | .div => if n = 0 then .error .divisionByZero else result a (a.keep (m.tdiv n)) type
  | .mod => if n = 0 then .error .divisionByZero else result a (a.keep (m.tmod n)) type
  | .shiftLeft => (shiftAmount n).bind fun k => result a (a.keep (m <<< k)) s
  | .shiftRight => (shiftAmount n).bind fun k => result a (a.keep (m >>> k)) s
  | .bitwiseAnd => result a (Bits.and m n) type
  | .bitwiseOr => result a (Bits.or m n) type
  | .bitwiseXor => result a (Bits.xor m n) type
  | .equal => .ok (flag (m == n))
  | .notEqual => .ok (flag (m != n))
  | .less => .ok (flag (m < n))
  | .lessEqual => .ok (flag (m ≤ n))
  | .greater => .ok (flag (n < m))
  | .greaterEqual => .ok (flag (n ≤ m))
  | .logicalAnd => .ok (flag (m != 0 && n != 0))
  | .logicalOr => .ok (flag (m != 0 || n != 0))

def binaryFloating (op : BinaryOp) (x y : Float) (single : Bool) : Except EvalError Value :=
  match op with
  | .add => .ok (.floating (x + y) single)
  | .sub => .ok (.floating (x - y) single)
  | .mul => .ok (.floating (x * y) single)
  | .div => if y == 0 then .error .divisionByZero else .ok (.floating (x / y) single)
  | .equal => .ok (flag (x == y))
  | .notEqual => .ok (flag (x != y))
  | .less => .ok (flag (x < y))
  | .lessEqual => .ok (flag (x ≤ y))
  | .greater => .ok (flag (y < x))
  | .greaterEqual => .ok (flag (y ≤ x))
  | op => unsupported (op.text ++ " on floating values")

def binary (a : Arithmetic) (op : BinaryOp) (v w : Value) : Except EvalError Value :=
  if v.isFloating || w.isFloating then
    match v.number?, w.number? with
    | some (x, xSingle), some (y, ySingle) => binaryFloating op x y (xSingle && ySingle)
    | _, _ => unsupported (op.text ++ " on string")
  else
    match v.promoted?, w.promoted? with
    | some (m, s), some (n, t) => binaryInteger a op m n s t
    | _, _ => unsupported (op.text ++ " on string")

def castSource (target : String) : Value → Except EvalError Int
  | .floating x _ =>
    let wide := LiteralType.modulus 127
    if x.isFinite then .ok (Numeral.wholePart (-wide) (wide - 1) x) else .error .outOfRange
  | v =>
    match v.promoted? with
    | some (n, _) => .ok n
    | none => unsupported ("(" ++ target ++ ") on string")

def cast (a : Arithmetic) (denoted : CastTarget) (target : String) (pointer : Bool) (v : Value) :
    Except EvalError Value :=
  if pointer then unsupported ("(" ++ target ++ "*)")
  else
    match denoted with
    | .integer t =>
      (castSource target v).bind fun n =>
        match a.wrap? t n with
        | some m => .ok (.integer m t)
        | none => .error .outOfRange
    | .floating single =>
      match v.number? with
      | some (x, _) => .ok (.floating x single)
      | none => unsupported ("(" ++ target ++ ") on string")
    | .boolean => v.truth.map .bool
    | .noLiteral => unsupported ("(" ++ target ++ ")")
    | .notAType => .error (.unknownIdentifier target)

end Value

end HeaderBinding
