import HeaderBinding.Expr.Token

namespace HeaderBinding

inductive UnaryOp where
  | neg
  | plus
  | logicalNot
  | bitwiseNot
  deriving DecidableEq, Repr

namespace UnaryOp

def ofPunct? : Punct → Option UnaryOp
  | .minus => some .neg
  | .plus => some .plus
  | .bang => some .logicalNot
  | .tilde => some .bitwiseNot
  | _ => none

def toPunct : UnaryOp → Punct
  | .neg => .minus
  | .plus => .plus
  | .logicalNot => .bang
  | .bitwiseNot => .tilde

theorem ofPunct?_eq_some_iff {p : Punct} {op : UnaryOp} : ofPunct? p = some op ↔ p = op.toPunct := by
  cases p <;> cases op <;> decide

def name : UnaryOp → String
  | .neg => "Neg"
  | .plus => "Plus"
  | .logicalNot => "LogicalNot"
  | .bitwiseNot => "BitwiseNot"

end UnaryOp

inductive BinaryOp where
  | logicalOr
  | logicalAnd
  | bitwiseOr
  | bitwiseXor
  | bitwiseAnd
  | equal
  | notEqual
  | less
  | lessEqual
  | greater
  | greaterEqual
  | shiftLeft
  | shiftRight
  | add
  | sub
  | mul
  | div
  | mod
  deriving DecidableEq, Repr

namespace BinaryOp

def level : BinaryOp → Nat
  | .logicalOr => 1
  | .logicalAnd => 2
  | .bitwiseOr => 3
  | .bitwiseXor => 4
  | .bitwiseAnd => 5
  | .equal | .notEqual => 6
  | .less | .lessEqual | .greater | .greaterEqual => 7
  | .shiftLeft | .shiftRight => 8
  | .add | .sub => 9
  | .mul | .div | .mod => 10

def ofPunct? : Punct → Option BinaryOp
  | .pipePipe => some .logicalOr
  | .ampAmp => some .logicalAnd
  | .pipe => some .bitwiseOr
  | .caret => some .bitwiseXor
  | .amp => some .bitwiseAnd
  | .equalEqual => some .equal
  | .notEqual => some .notEqual
  | .less => some .less
  | .lessEqual => some .lessEqual
  | .greater => some .greater
  | .greaterEqual => some .greaterEqual
  | .shiftLeft => some .shiftLeft
  | .shiftRight => some .shiftRight
  | .plus => some .add
  | .minus => some .sub
  | .star => some .mul
  | .slash => some .div
  | .percent => some .mod
  | _ => none

def toPunct : BinaryOp → Punct
  | .logicalOr => .pipePipe
  | .logicalAnd => .ampAmp
  | .bitwiseOr => .pipe
  | .bitwiseXor => .caret
  | .bitwiseAnd => .amp
  | .equal => .equalEqual
  | .notEqual => .notEqual
  | .less => .less
  | .lessEqual => .lessEqual
  | .greater => .greater
  | .greaterEqual => .greaterEqual
  | .shiftLeft => .shiftLeft
  | .shiftRight => .shiftRight
  | .add => .plus
  | .sub => .minus
  | .mul => .star
  | .div => .slash
  | .mod => .percent

theorem ofPunct?_eq_some_iff {p : Punct} {op : BinaryOp} : ofPunct? p = some op ↔ p = op.toPunct := by
  cases p <;> cases op <;> decide

def text (op : BinaryOp) : String :=
  op.toPunct.text

def isComparison : BinaryOp → Bool
  | .equal | .notEqual | .less | .lessEqual | .greater | .greaterEqual => true
  | _ => false

end BinaryOp

inductive Expr where
  | integer (literal : IntegerLiteral)
  | floating (value : Float) (single : Bool)
  | char (c : Char)
  | string (s : String)
  | bool (b : Bool)
  | ident (name : String)
  | unary (op : UnaryOp) (operand : Expr)
  | binary (op : BinaryOp) (left right : Expr)
  | ternary (condition thenExpr elseExpr : Expr)
  | cast (target : String) (pointer : Bool) (operand : Expr)
  deriving DecidableEq

end HeaderBinding
