import HeaderBinding.Digest

namespace HeaderBinding

inductive Category where
  | synonym
  | definedType
  | constant
  | procedure
  deriving DecidableEq, Repr

namespace Category

def all : List Category := [.synonym, .definedType, .constant, .procedure]

def text : Category → String
  | .synonym => "typedef"
  | .definedType => "defined type"
  | .constant => "constant"
  | .procedure => "procedure"

def word : Category → String
  | .synonym => "typedef"
  | .definedType => "defined_type"
  | .constant => "constant"
  | .procedure => "procedure"

def ofWord? (w : String) : Option Category :=
  all.find? (·.word == w)

def rank : Category → Nat
  | .synonym => 0
  | .definedType => 1
  | .constant => 2
  | .procedure => 3

def salt : Category → UInt64
  | .synonym => 0x2fac10b63a6cc57c
  | .definedType => 0x5ea77ffbcdf5f302
  | .constant => 0x7d3c8b4a92e15f6d
  | .procedure => 0x3e9f5d2a8c7b1403

end Category

structure Key where
  category : Category
  name : String
  deriving DecidableEq, Repr

namespace Key

def synonym (name : String) : Key := ⟨.synonym, name⟩

def definedType (name : String) : Key := ⟨.definedType, name⟩

def constant (name : String) : Key := ⟨.constant, name⟩

def procedure (name : String) : Key := ⟨.procedure, name⟩

def text (k : Key) : String :=
  k.category.text ++ " '" ++ k.name ++ "'"

def digest (k : Key) : UInt64 :=
  k.category.salt ^^^ Digest.ofString k.name

def le (a b : Key) : Bool :=
  if a.category = b.category then a.name ≤ b.name else a.category.rank < b.category.rank

end Key

end HeaderBinding
