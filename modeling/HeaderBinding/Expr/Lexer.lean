import HeaderBinding.Expr.Error
import HeaderBinding.Expr.Token
import HeaderBinding.Text.Blank

namespace HeaderBinding

namespace Lexer

def isDigit (c : Char) : Bool := '0' ≤ c && c ≤ '9'

def isLetter (c : Char) : Bool := ('a' ≤ c && c ≤ 'z') || ('A' ≤ c && c ≤ 'Z')

def isAlphanumeric (c : Char) : Bool := isDigit c || isLetter c

def isIdentStart (c : Char) : Bool := c = '_' || isLetter c

def isIdentPart (c : Char) : Bool := c = '_' || isAlphanumeric c

def digitValue? (c : Char) : Option Nat :=
  if isDigit c then some (c.toNat - 48)
  else if 'a' ≤ c ∧ c ≤ 'f' then some (c.toNat - 87)
  else if 'A' ≤ c ∧ c ≤ 'F' then some (c.toNat - 55)
  else none

def isDigitIn (base : Nat) (c : Char) : Bool :=
  match digitValue? c with
  | some d => d < base
  | none => false

def numberFrom? (base n : Nat) : List Char → Option Nat
  | [] => some n
  | c :: cs =>
    match digitValue? c with
    | some d => if d < base then numberFrom? base (n * base + d) cs else none
    | none => none

def number? (base : Nat) (cs : List Char) : Option Nat :=
  if cs.isEmpty then none else numberFrom? base 0 cs

structure Read (α : Type) (n : Nat) where
  value : α
  rest : List Char
  length_le : rest.length ≤ n

def Read.within {α : Type} {n m : Nat} (r : Read α n) (h : n ≤ m) : Read α m :=
  ⟨r.value, r.rest, Nat.le_trans r.length_le h⟩

def Read.map {α β : Type} {n : Nat} (f : α → β) (r : Read α n) : Read β n :=
  ⟨f r.value, r.rest, r.length_le⟩

theorem length_dropWhile_le (p : Char → Bool) (cs : List Char) : (cs.dropWhile p).length ≤ cs.length :=
  (List.dropWhile_sublist p).length_le

def span (p : Char → Bool) (cs : List Char) : Read (List Char) cs.length :=
  ⟨cs.takeWhile p, cs.dropWhile p, length_dropWhile_le p cs⟩

def afterComment? : (cs : List Char) → Option { rest : List Char // rest.length ≤ cs.length }
  | [] => none
  | '*' :: '/' :: rest => some ⟨rest, by simp; omega⟩
  | _ :: cs => (afterComment? cs).map fun ⟨rest, h⟩ => ⟨rest, by simp; omega⟩

def malformed {α : Type} (text : List Char) : Except EvalError α :=
  .error (.malformedLiteral (String.ofList text))

def escape (cs : List Char) : Except EvalError (Read Char cs.length) :=
  match cs with
  | [] => malformed ['\\']
  | c :: cs =>
    let simple (d : Char) : Except EvalError (Read Char (c :: cs).length) := .ok ⟨d, cs, by simp⟩
    if c = 'n' then simple '\n'
    else if c = 't' then simple '\t'
    else if c = 'r' then simple '\r'
    else if isDigitIn 8 c then
      let more := (cs.take 2).takeWhile (isDigitIn 8)
      match number? 8 (c :: more) with
      | some n => .ok ⟨Char.ofNat n, cs.drop more.length, by simp; omega⟩
      | none => malformed ['\\', '0']
    else if c = 'x' then
      let hex := span (isDigitIn 16) cs
      match number? 16 hex.value with
      | some n =>
        if n.isValidChar then .ok ⟨Char.ofNat n, hex.rest, Nat.le_trans hex.length_le (by simp)⟩
        else malformed hex.value
      | none => malformed hex.value
    else if c = 'a' then simple '\x07'
    else if c = 'b' then simple '\x08'
    else if c = 'f' then simple '\x0c'
    else if c = 'v' then simple '\x0b'
    else if c = '\\' ∨ c = '\'' ∨ c = '"' ∨ c = '?' then simple c
    else malformed [c]

def closeChar {n : Nat} (r : Read Char n) : Except EvalError (Read Char n) :=
  match h : r.rest with
  | '\'' :: rest => .ok ⟨r.value, rest, by have := r.length_le; simp [h] at this; omega⟩
  | _ => malformed ['\'', r.value]

def charLiteral (cs : List Char) : Except EvalError (Read Char cs.length) :=
  match cs with
  | [] | '\'' :: _ => malformed ['\'', '\'']
  | '\\' :: cs => do
    let r ← escape cs
    closeChar (r.within (by simp))
  | c :: cs => closeChar ⟨c, cs, by simp⟩

def stringLiteral (before cs : List Char) : Except EvalError (Read String cs.length) :=
  match cs with
  | [] => malformed ('"' :: before.reverse)
  | '"' :: cs => .ok ⟨String.ofList before.reverse, cs, by simp⟩
  | '\\' :: cs =>
    match escape cs with
    | .error e => .error e
    | .ok r =>
      have := r.length_le
      (stringLiteral (r.value :: before) r.rest).map (·.within (by simp; omega))
  | c :: cs => (stringLiteral (c :: before) cs).map (·.within (by simp))
termination_by cs.length

def suffix? (suffix : String) : Option (Bool × LiteralType) :=
  if suffix ∈ ["", "l", "i32", "i16", "i8"] then some (false, .int32)
  else if suffix ∈ ["u", "ul", "lu", "ui32", "ui16", "ui8"] then some (true, .uint32)
  else if suffix ∈ ["ll", "i64"] then some (false, .int64)
  else if suffix ∈ ["ull", "llu", "ui64"] then some (true, .uint64)
  else none

def lowercase (c : Char) : Char :=
  if 'A' ≤ c ∧ c ≤ 'Z' then Char.ofNat (c.toNat + 32) else c

def integer (lead digits : List Char) (base : Nat) (cs : List Char) :
    Except EvalError (Read Token cs.length) :=
  let s := span isAlphanumeric cs
  match suffix? (String.ofList (s.value.map lowercase)), number? base digits with
  | some (unsigned, floor), some n =>
    if n < UInt64.size then .ok (s.map fun _ => .integer ⟨UInt64.ofNat n, floor, unsigned⟩)
    else malformed (lead ++ s.value)
  | _, _ => malformed (lead ++ s.value)

def exponent? (cs : List Char) : Option (Read (Bool × List Char) cs.length) :=
  match cs with
  | e :: cs =>
    if e = 'e' ∨ e = 'E' then
      let signed := cs.head? == some '+' || cs.head? == some '-'
      let digits := span isDigit (if signed then cs.tail else cs)
      if digits.value.isEmpty then none
      else some ⟨(cs.head? == some '-', digits.value), digits.rest, by
        have := digits.length_le
        split at this <;> simp at * <;> omega⟩
    else none
  | [] => none

def decimal (digits : Nat) (exponent : Int) : Float :=
  Float.ofScientific digits (exponent < 0) exponent.natAbs

def digitsValue (cs : List Char) : Nat :=
  (numberFrom? 10 0 cs).getD 0

def floatSuffix (cs : List Char) : Read Bool cs.length :=
  match cs with
  | c :: rest =>
    if c = 'f' ∨ c = 'F' then ⟨true, rest, by simp⟩
    else if c = 'l' ∨ c = 'L' then ⟨false, rest, by simp⟩
    else ⟨false, c :: rest, Nat.le_refl _⟩
  | [] => ⟨false, [], Nat.le_refl _⟩

def fraction? (cs : List Char) : Option (Read (List Char) cs.length) :=
  match cs with
  | '.' :: cs => some ((span isDigit cs).within (by simp))
  | _ => none

def floating {n : Nat} (whole fraction : List Char) (e : Read (Bool × List Char) n) : Read Token n :=
  let exponent : Int := digitsValue e.value.2
  let value := decimal (digitsValue (whole ++ fraction))
    ((if e.value.1 then -exponent else exponent) - fraction.length)
  ((floatSuffix e.rest).map (.floating value ·)).within e.length_le

def decimalNumber (cs : List Char) : Except EvalError (Read Token cs.length) :=
  let whole := span isDigit cs
  let integral : Except EvalError (Read Token cs.length) :=
    match whole.value with
    | '0' :: d :: ds => (integer whole.value (d :: ds) 8 whole.rest).map (·.within whole.length_le)
    | digits => (integer digits digits 10 whole.rest).map (·.within whole.length_le)
  match fraction? whole.rest with
  | some fraction =>
    let e := match exponent? fraction.rest with
      | some e => e.within fraction.length_le
      | none => ⟨(false, []), fraction.rest, fraction.length_le⟩
    .ok ((floating whole.value fraction.value e).within whole.length_le)
  | none =>
    match exponent? whole.rest with
    | some e => .ok ((floating whole.value [] e).within whole.length_le)
    | none => integral

def number (cs : List Char) : Except EvalError (Read Token cs.length) :=
  match cs with
  | '0' :: x :: rest =>
    if x = 'x' ∨ x = 'X' then
      let digits := span (isDigitIn 16) rest
      (integer ('0' :: x :: digits.value) digits.value 16 digits.rest).map
        (·.within (Nat.le_trans digits.length_le (by simp; omega)))
    else decimalNumber ('0' :: x :: rest)
  | cs => decimalNumber cs

def pair? : Char → Char → Option Punct
  | '<', '<' => some .shiftLeft
  | '>', '>' => some .shiftRight
  | '<', '=' => some .lessEqual
  | '>', '=' => some .greaterEqual
  | '=', '=' => some .equalEqual
  | '!', '=' => some .notEqual
  | '&', '&' => some .ampAmp
  | '|', '|' => some .pipePipe
  | _, _ => none

def punct? : Char → Option Punct
  | '+' => some .plus
  | '-' => some .minus
  | '*' => some .star
  | '/' => some .slash
  | '%' => some .percent
  | '<' => some .less
  | '>' => some .greater
  | '&' => some .amp
  | '^' => some .caret
  | '|' => some .pipe
  | '~' => some .tilde
  | '!' => some .bang
  | '?' => some .question
  | ':' => some .colon
  | '(' => some .leftParen
  | ')' => some .rightParen
  | _ => none

def operator (c : Char) (cs : List Char) : Except EvalError (Read Punct cs.length) :=
  match cs.head?.bind (pair? c) with
  | some p => .ok ⟨p, cs.tail, by simp⟩
  | none =>
    match punct? c with
    | some p => .ok ⟨p, cs, Nat.le_refl _⟩
    | none => .error (.unsupportedOperator c.toString)

def word (cs : List Char) : Token :=
  if cs = "true".toList then .bool true
  else if cs = "false".toList then .bool false
  else .ident (String.ofList cs)

inductive Lexeme where
  | gap
  | token (t : Token)
  | stop

def isQuote (c : Char) : Bool := c = '\'' || c = '"'

def lexeme (source : String) (c : Char) (cs : List Char) :
    Except EvalError (Read Lexeme cs.length) :=
  if Text.isBlank c then .ok ⟨.gap, cs, Nat.le_refl _⟩
  else if isDigit c || (c = '.' && cs.head?.any isDigit) then
    match number (c :: cs) with
    | .error e => .error e
    | .ok r =>
      if h : r.rest.length ≤ cs.length then .ok ⟨.token r.value, r.rest, h⟩
      else malformed [c]
  else if c = '\'' then (charLiteral cs).map (·.map (.token <| .char ·))
  else if c = '"' then (stringLiteral [] cs).map (·.map (.token <| .string ·))
  else if c = 'L' && cs.head?.any isQuote then .ok ⟨.gap, cs, Nat.le_refl _⟩
  else if isIdentStart c then
    .ok ((span isIdentPart cs).map fun more => .token (word (c :: more)))
  else if c = '/' && cs.head? = some '*' then
    match afterComment? cs.tail with
    | some ⟨rest, h⟩ => .ok ⟨.gap, rest, Nat.le_trans h (by simp)⟩
    | none => .error (.malformedLiteral source)
  else if c = '/' && cs.head? = some '/' then .ok ⟨.stop, [], by simp⟩
  else (operator c cs).map (·.map (.token <| .punct ·))

def tokensFrom (source : String) (cs : List Char) : Except EvalError (List Token) :=
  match cs with
  | [] => .ok []
  | c :: cs =>
    match lexeme source c cs with
    | .error e => .error e
    | .ok ⟨.gap, rest, _⟩ => tokensFrom source rest
    | .ok ⟨.stop, _, _⟩ => .ok []
    | .ok ⟨.token t, rest, _⟩ =>
      match tokensFrom source rest with
      | .error e => .error e
      | .ok ts => .ok (t :: ts)
termination_by cs.length
decreasing_by all_goals simp; omega

end Lexer

def tokenize (source : String) : Except EvalError (List Token) :=
  Lexer.tokensFrom source source.toList

end HeaderBinding
