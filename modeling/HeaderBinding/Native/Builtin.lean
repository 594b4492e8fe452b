import HeaderBinding.Text.Blank

namespace HeaderBinding

inductive BuiltinKind where
  | void
  | boolean
  | char
  | wideChar
  | byte
  | int16
  | int32
  | int64
  | float
  | double
  deriving DecidableEq, Repr

namespace BuiltinKind

def all : List BuiltinKind :=
  [.void, .boolean, .char, .wideChar, .byte, .int16, .int32, .int64, .float, .double]

def word : BuiltinKind → String
  | .void => "void"
  | .boolean => "boolean"
  | .char => "char"
  | .wideChar => "w_char"
  | .byte => "byte"
  | .int16 => "int16"
  | .int32 => "int32"
  | .int64 => "int64"
  | .float => "float"
  | .double => "double"

def ofWord? (w : String) : Option BuiltinKind :=
  all.find? (·.word == w)

def size? : BuiltinKind → Option Nat
  | .void => none
  | .boolean | .char | .byte => some 1
  | .wideChar | .int16 => some 2
  | .int32 | .float => some 4
  | .int64 | .double => some 8

def takesSign : BuiltinKind → Bool
  | .char | .byte | .int16 | .int32 | .int64 => true
  | _ => false

end BuiltinKind

structure Builtin where
  kind : BuiltinKind
  isUnsigned : Bool
  deriving DecidableEq, Repr

namespace Builtin

def void : Builtin := ⟨.void, false⟩

def isVoid (b : Builtin) : Bool :=
  b.kind == .void

def isCharacter (b : Builtin) : Bool :=
  match b.kind with
  | .char | .wideChar => true
  | _ => false

def isIntegral (b : Builtin) : Bool :=
  match b.kind with
  | .char | .wideChar | .byte | .int16 | .int32 | .int64 => true
  | _ => false

def isFloating (b : Builtin) : Bool :=
  match b.kind with
  | .float | .double => true
  | _ => false

def kindOfWords? : List String → Option BuiltinKind
  | ["void"] => some .void
  | ["bool"] | ["_Bool"] | ["boolean"] => some .boolean
  | ["char"] | ["__int8"] => some .char
  | ["wchar_t"] | ["__wchar_t"] => some .wideChar
  | ["byte"] => some .byte
  | ["short"] | ["short", "int"] | ["__int16"] => some .int16
  | ["int"] | ["long"] | ["long", "int"] | ["__int32"] => some .int32
  | ["long", "long"] | ["long", "long", "int"] | ["__int64"] => some .int64
  | ["float"] => some .float
  | ["double"] | ["long", "double"] => some .double
  | _ => none

def ofWords? : List String → Option Builtin
  | ["unsigned"] => some ⟨.int32, true⟩
  | ["signed"] => some ⟨.int32, false⟩
  | "unsigned" :: rest =>
    match kindOfWords? rest with
    | some k => if k.takesSign then some ⟨k, true⟩ else none
    | none => none
  | "signed" :: rest => (kindOfWords? rest).map (⟨·, false⟩)
  | words => (kindOfWords? words).map (⟨·, false⟩)

def ofSpelling? (s : String) : Option Builtin :=
  ofWords? (Text.words s)

def spelling : Builtin → String
  | ⟨.void, _⟩ => "void"
  | ⟨.boolean, _⟩ => "bool"
  | ⟨.char, false⟩ => "char"
  | ⟨.char, true⟩ => "unsigned char"
  | ⟨.wideChar, _⟩ => "wchar_t"
  | ⟨.byte, _⟩ => "byte"
  | ⟨.int16, false⟩ => "short"
  | ⟨.int16, true⟩ => "unsigned short"
  | ⟨.int32, false⟩ => "int"
  | ⟨.int32, true⟩ => "unsigned int"
  | ⟨.int64, false⟩ => "__int64"
  | ⟨.int64, true⟩ => "unsigned __int64"
  | ⟨.float, _⟩ => "float"
  | ⟨.double, _⟩ => "double"

end Builtin

end HeaderBinding
