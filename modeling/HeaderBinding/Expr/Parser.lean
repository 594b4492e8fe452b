import HeaderBinding.Expr.Basic
import HeaderBinding.Expr.Error

namespace HeaderBinding

namespace Expr

structure Parsed (n : Nat) where
  expr : Expr
  rest : List Token
  length_lt : rest.length < n

def Parsed.map {n m : Nat} (f : Expr → Expr) (h : n ≤ m) (p : Parsed n) : Parsed m :=
  ⟨f p.expr, p.rest, Nat.lt_of_lt_of_le p.length_lt h⟩

def expect (p : Punct) (ts : List Token) :
    Except EvalError { rest : List Token // rest.length < ts.length } :=
  match ts with
  | [] => .error (.unsupportedOperator ("missing '" ++ p.text ++ "'"))
  | t :: rest =>
    if t = .punct p then .ok ⟨rest, Nat.lt_succ_self _⟩ else .error (.unsupportedOperator t.text)

def isString : Token → Bool
  | .string _ => true
  | _ => false

def stringOf : Token → String
  | .string s => s
  | _ => ""

def identOf? : Token → Option String
  | .ident name => some name
  | _ => none

def names : (ts : List Token) → List String × { rest : List Token // rest.length ≤ ts.length }
  | .ident name :: ts =>
    let (more, ⟨rest, h⟩) := names ts
    (name :: more, ⟨rest, Nat.le_succ_of_le h⟩)
  | ts => ([], ⟨ts, Nat.le_refl _⟩)

def isStar : Token → Bool
  | .punct .star => true
  | _ => false

def startsOperand : Token → Bool
  | .punct .leftParen => true
  | .punct p => (UnaryOp.ofPunct? p).isSome
  | _ => true

def castHead? (isType : String → Bool) (ts : List Token) :
    Option (String × Bool × { rest : List Token // rest.length < ts.length }) :=
  let (words, ⟨afterNames, h⟩) := names ts
  let pointer := afterNames.head?.any isStar
  match hs : afterNames.dropWhile isStar with
  | .punct .rightParen :: rest =>
    let target := " ".intercalate words
    if !words.isEmpty && isType target && (pointer || rest.head?.any startsOperand) then
      some (target, pointer, ⟨rest, by
        have := (List.dropWhile_sublist isStar (l := afterNames)).length_le
        rw [hs, List.length_cons] at this
        omega⟩)
    else none
  | _ => none

mutual
def parseOperand (isType : String → Bool) (ts : List Token) : Except EvalError (Parsed ts.length) :=
  match ts with
  | [] => .error .emptyExpression
  | .integer literal :: rest => .ok ⟨.integer literal, rest, Nat.lt_succ_self _⟩
  | .floating value single :: rest => .ok ⟨.floating value single, rest, Nat.lt_succ_self _⟩
  | .char c :: rest => .ok ⟨.char c, rest, Nat.lt_succ_self _⟩
  | .bool b :: rest => .ok ⟨.bool b, rest, Nat.lt_succ_self _⟩
  | .ident name :: rest => .ok ⟨.ident name, rest, Nat.lt_succ_self _⟩
  | .string s :: rest =>
    .ok ⟨.string (s ++ String.join ((rest.takeWhile isString).map stringOf)), rest.dropWhile isString,
      Nat.lt_succ_of_le (List.dropWhile_sublist isString).length_le⟩
  | .punct .leftParen :: rest =>
    match castHead? isType rest with
    | some (target, pointer, ⟨rest', h⟩) => do
      let p ← parseOperand isType rest'
      pure (p.map (.cast target pointer) (Nat.le_succ_of_le (Nat.le_of_lt h)))
    | none => do
      let inner ← parseFrom isType 0 rest
      let ⟨rest', h⟩ ← expect .rightParen inner.rest
      pure ⟨inner.expr, rest', Nat.lt_succ_of_lt (Nat.lt_trans h inner.length_lt)⟩
  | .punct p :: rest =>
    match UnaryOp.ofPunct? p with
    | some op => do
      let operand ← parseOperand isType rest
      pure (operand.map (.unary op) (Nat.le_succ _))
    | none => .error (.unsupportedOperator p.text)
termination_by (ts.length, 0)

def parseFrom (isType : String → Bool) (level : Nat) (ts : List Token) :
    Except EvalError (Parsed ts.length) := do
  let first ← parseOperand isType ts
  parseTail isType level ts.length first
termination_by (ts.length, 1)
decreasing_by
  · exact Prod.Lex.right _ (by omega)
  · exact Prod.Lex.left _ _ first.length_lt

def parseTail (isType : String → Bool) (level n : Nat) (left : Parsed n) : Except EvalError (Parsed n) :=
  match h : left.rest with
  | .punct .question :: rest =>
    if level = 0 then do
      let thenExpr ← parseFrom isType 0 rest
      let ⟨afterColon, hc⟩ ← expect .colon thenExpr.rest
      let elseExpr ← parseFrom isType 0 afterColon
      parseTail isType level n ⟨.ternary left.expr thenExpr.expr elseExpr.expr, elseExpr.rest, by
        have := left.length_lt
        have := thenExpr.length_lt
        have := elseExpr.length_lt
        simp only [h, List.length_cons] at *
        omega⟩
    else .ok left
  | .punct p :: rest =>
    match BinaryOp.ofPunct? p with
    | some op =>
      if level ≤ op.level then do
        let right ← parseFrom isType (op.level + 1) rest
        parseTail isType level n ⟨.binary op left.expr right.expr, right.rest, by
          have := left.length_lt
          have := right.length_lt
          simp only [h, List.length_cons] at *
          omega⟩
      else .ok left
    | none => .ok left
  | _ => .ok left
termination_by (left.rest.length, 0)
decreasing_by
  all_goals try have := thenExpr.length_lt
  all_goals try have := elseExpr.length_lt
  all_goals try have := right.length_lt
  all_goals simp only [h, List.length_cons] at *
  all_goals exact Prod.Lex.left _ _ (by omega)
end

def parse (isType : String → Bool) (ts : List Token) : Except EvalError Expr := do
  let p ← parseFrom isType 0 ts
  match p.rest with
  | [] => pure p.expr
  | t :: _ => throw (.unsupportedOperator t.text)

end Expr

end HeaderBinding
