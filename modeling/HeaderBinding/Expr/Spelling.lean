import HeaderBinding.Expr.Lexer

namespace HeaderBinding

def LiteralType.suffixes : LiteralType → List String
  | .int32 => ["", "l", "i32", "i16", "i8"]
  | .uint32 => ["u", "ul", "lu", "ui32", "ui16", "ui8"]
  | .int64 => ["ll", "i64"]
  | .uint64 => ["ull", "llu", "ui64"]
  | _ => []

def IsNumeral (base n : Nat) (cs : List Char) : Prop :=
  ∃ zeros, cs.map Char.toLower = List.replicate zeros '0' ++ Nat.toDigits base n

inductive WritesNat (n : Nat) : List Char → Prop
  | decimal : WritesNat n (Nat.toDigits 10 n)
  | octal {cs : List Char} (h : IsNumeral 8 n cs) : WritesNat n ('0' :: cs)
  | hexadecimal {x : Char} {cs : List Char} (hx : x.toLower = 'x') (h : IsNumeral 16 n cs) :
    WritesNat n ('0' :: x :: cs)

def IsIdentifier : List Char → Prop
  | [] => False
  | c :: cs => (c = '_' ∨ c.isAlpha = true) ∧ ∀ d ∈ cs, d = '_' ∨ d.isAlphanum = true

instance : DecidablePred IsIdentifier
  | [] => inferInstanceAs (Decidable False)
  | _ :: cs => @instDecidableAnd _ _ inferInstance (List.decidableBAll _ cs)

def quoted (quote c : Char) : List Char :=
  if c = '\\' ∨ c = quote then ['\\', c] else [c]

def wideMarks : List (List Char) :=
  [[], ['L']]

namespace Token

inductive WrittenAs : Token → List Char → Prop
  | integer (value : UInt64) {floor : LiteralType} {digits suffix : List Char} (hdigits : WritesNat value.toNat digits)
    (hsuffix : String.ofList (suffix.map Char.toLower) ∈ floor.suffixes) :
    WrittenAs (.integer ⟨value, floor, floor.isUnsigned⟩) (digits ++ suffix)
  | char (c : Char) {mark : List Char} (hmark : mark ∈ wideMarks) :
    WrittenAs (.char c) (mark ++ '\'' :: (quoted '\'' c ++ ['\'']))
  | string (s : String) {mark : List Char} (hmark : mark ∈ wideMarks) :
    WrittenAs (.string s) (mark ++ '"' :: (s.toList.flatMap (quoted '"') ++ ['"']))
  | bool (b : Bool) : WrittenAs (.bool b) (if b then "true" else "false").toList
  | ident {name : String} (hname : IsIdentifier name.toList) (htrue : name ≠ "true") (hfalse : name ≠ "false") :
    WrittenAs (.ident name) name.toList
  | punct (p : Punct) : WrittenAs (.punct p) p.text.toList

def IsWritable : Token → Prop
  | .integer literal => literal.floor ∈ LiteralType.widening ∧ literal.unsigned = literal.floor.isUnsigned
  | .floating _ _ => False
  | .ident name => IsIdentifier name.toList ∧ name ≠ "true" ∧ name ≠ "false"
  | .char _ | .string _ | .bool _ | .punct _ => True

instance : DecidablePred IsWritable
  | .integer _ => inferInstanceAs (Decidable (_ ∧ _))
  | .floating _ _ => inferInstanceAs (Decidable False)
  | .ident _ => inferInstanceAs (Decidable (_ ∧ _))
  | .char _ | .string _ | .bool _ | .punct _ => inferInstanceAs (Decidable True)

end Token

inductive SpelledAs : List Token → List Char → Prop
  | done : SpelledAs [] []
  | lineComment (content : List Char) : SpelledAs [] ('/' :: '/' :: content)
  | blank {c : Char} {ts : List Token} {cs : List Char} (hc : Text.isBlank c = true) (h : SpelledAs ts cs) :
    SpelledAs ts (c :: cs)
  | blockComment {content : List Char} {ts : List Token} {cs : List Char} (hfree : ¬['*', '/'] <:+: content)
    (h : SpelledAs ts cs) : SpelledAs ts ('/' :: '*' :: (content ++ '*' :: '/' :: cs))
  | last {t : Token} {w : List Char} (ht : t.WrittenAs w) : SpelledAs [t] w
  | token {t : Token} {w : List Char} {c : Char} {ts : List Token} {cs : List Char} (ht : t.WrittenAs w)
    (hc : Text.isBlank c = true) (h : SpelledAs ts cs) : SpelledAs (t :: ts) (w ++ c :: cs)

end HeaderBinding
