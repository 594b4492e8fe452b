import HeaderBinding.Literal.Basic

namespace HeaderBinding

inductive Punct where
  | plus
  | minus
  | star
  | slash
  | percent
  | shiftLeft
  | shiftRight
  | less
  | lessEqual
  | greater
  | greaterEqual
  | equalEqual
  | notEqual
  | amp
  | caret
  | pipe
  | ampAmp
  | pipePipe
  | tilde
  | bang
  | question
  | colon
  | leftParen
  | rightParen
  deriving DecidableEq, Repr

def Punct.text : Punct → String
  | .plus => "+"
  | .minus => "-"
  | .star => "*"
  | .slash => "/"
  | .percent => "%"
  | .shiftLeft => "<<"
  | .shiftRight => ">>"
  | .less => "<"
  | .lessEqual => "<="
  | .greater => ">"
  | .greaterEqual => ">="
  | .equalEqual => "=="
  | .notEqual => "!="
  | .amp => "&"
  | .caret => "^"
  | .pipe => "|"
  | .ampAmp => "&&"
  | .pipePipe => "||"
  | .tilde => "~"
  | .bang => "!"
  | .question => "?"
  | .colon => ":"
  | .leftParen => "("
  | .rightParen => ")"

structure IntegerLiteral where
  value : UInt64
  floor : LiteralType
  unsigned : Bool
  deriving DecidableEq, Repr

inductive Token where
  | integer (literal : IntegerLiteral)
  | floating (value : Float) (single : Bool)
  | char (c : Char)
  | string (s : String)
  | bool (b : Bool)
  | ident (name : String)
  | punct (p : Punct)
  deriving DecidableEq

def Token.text : Token → String
  | .integer literal => toString literal.value.toNat
  | .floating value _ => Numeral.Layout.plain.double value
  | .char c => Text.quoteChar c
  | .string s => Text.quoteString s
  | .bool b => if b then "true" else "false"
  | .ident name => name
  | .punct p => p.text

end HeaderBinding
