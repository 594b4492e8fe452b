import HeaderBinding.Expr.Parser

namespace HeaderBinding

namespace Expr

def castHead (words : List String) (stars : Nat) : List Token :=
  words.map .ident ++ (List.replicate stars (.punct .star) ++ [.punct .rightParen])

def OpensCast (isType : String → Bool) (ts : List Token) : Prop :=
  ∃ words stars rest, ts = castHead words stars ++ rest ∧ words ≠ [] ∧ isType (" ".intercalate words) = true ∧
    (0 < stars ∨ rest.head?.any startsOperand = true)

inductive Spells (isType : String → Bool) : Nat → Expr → List Token → List Token → Prop
  | integer (literal : IntegerLiteral) (rest : List Token) :
    Spells isType 12 (.integer literal) (.integer literal :: rest) rest
  | floating (value : Float) (single : Bool) (rest : List Token) :
    Spells isType 12 (.floating value single) (.floating value single :: rest) rest
  | char (c : Char) (rest : List Token) : Spells isType 12 (.char c) (.char c :: rest) rest
  | bool (b : Bool) (rest : List Token) : Spells isType 12 (.bool b) (.bool b :: rest) rest
  | ident (name : String) (rest : List Token) : Spells isType 12 (.ident name) (.ident name :: rest) rest
  | string (s : String) (more : List String) {rest : List Token} (hrest : rest.head?.any isString = false) :
    Spells isType 12 (.string (String.join (s :: more))) ((s :: more).map .string ++ rest) rest
  | paren {e : Expr} {ts rest : List Token} (h : Spells isType 0 e ts (.punct .rightParen :: rest))
    (hcast : ¬ OpensCast isType ts) : Spells isType 12 e (.punct .leftParen :: ts) rest
  | unary (op : UnaryOp) {e : Expr} {ts rest : List Token} (h : Spells isType 11 e ts rest) :
    Spells isType 11 (.unary op e) (.punct op.toPunct :: ts) rest
  | cast {words : List String} (hwords : words ≠ []) (htype : isType (" ".intercalate words) = true)
    (stars : Nat) {e : Expr} {ts rest : List Token} (h : Spells isType 11 e ts rest) :
    Spells isType 11 (.cast (" ".intercalate words) (0 < stars) e)
      (.punct .leftParen :: (castHead words stars ++ ts)) rest
  | binary (op : BinaryOp) {l r : Expr} {ts ts' rest : List Token}
    (hl : Spells isType op.level l ts (.punct op.toPunct :: ts')) (hr : Spells isType (op.level + 1) r ts' rest) :
    Spells isType op.level (.binary op l r) ts rest
  | ternary {c a b : Expr} {ts ts' ts'' rest : List Token}
    (hc : Spells isType 1 c ts (.punct .question :: ts')) (ha : Spells isType 0 a ts' (.punct .colon :: ts''))
    (hb : Spells isType 0 b ts'' rest) : Spells isType 0 (.ternary c a b) ts rest
  | tighter {k : Nat} {e : Expr} {ts rest : List Token} (h : Spells isType (k + 1) e ts rest) :
    Spells isType k e ts rest

def level : Expr → Nat
  | .ternary _ _ _ => 0
  | .binary op _ _ => op.level
  | .unary _ _ | .cast _ _ _ => 11
  | .integer _ | .floating _ _ | .char _ | .string _ | .bool _ | .ident _ => 12

def words (target : String) : List String :=
  (target.toList.splitOn ' ').map String.ofList

def WellFormed (isType : String → Bool) : Expr → Prop
  | .unary _ e => e.WellFormed isType
  | .binary _ l r => l.WellFormed isType ∧ r.WellFormed isType
  | .ternary c a b => c.WellFormed isType ∧ a.WellFormed isType ∧ b.WellFormed isType
  | .cast target _ e => isType target = true ∧ e.WellFormed isType
  | .integer _ | .floating _ _ | .char _ | .string _ | .bool _ | .ident _ => True

def enclosed (ts : List Token) : List Token :=
  .punct .leftParen :: (ts ++ [.punct .rightParen])

def placed (place own : Nat) (ts : List Token) : List Token :=
  if own < place then enclosed ts else ts

def tokens : Expr → List Token
  | .integer literal => [.integer literal]
  | .floating value single => [.floating value single]
  | .char c => [.char c]
  | .string s => [.string s]
  | .bool b => [.bool b]
  | .ident name => [.ident name]
  | .unary op e => .punct op.toPunct :: placed 11 e.level e.tokens
  | .cast target pointer e =>
    .punct .leftParen :: (castHead (words target) (if pointer then 1 else 0) ++ placed 11 e.level e.tokens)
  | .binary op l r =>
    placed op.level l.level l.tokens ++ .punct op.toPunct :: placed (op.level + 1) r.level r.tokens
  | .ternary c a b =>
    placed 1 c.level c.tokens ++ .punct .question :: (a.tokens ++ .punct .colon :: b.tokens)

end Expr

end HeaderBinding
