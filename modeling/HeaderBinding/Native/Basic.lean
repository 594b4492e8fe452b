import HeaderBinding.Declaration.Key
import HeaderBinding.Literal.Basic
import HeaderBinding.Native.Builtin

namespace HeaderBinding

inductive ArrayLength where
  | fixed (n : UInt64)
  | constant (name : String)
  deriving DecidableEq, Repr

structure Qualifiers where
  bits : UInt8
  deriving DecidableEq, Repr

namespace Qualifiers

def empty : Qualifiers := ⟨0⟩

def const : Qualifiers := ⟨1⟩

def volatile : Qualifiers := ⟨2⟩

def has (q flag : Qualifiers) : Bool :=
  q.bits &&& flag.bits == flag.bits

end Qualifiers

inductive Target where
  | declaration (key : Key)
  | builtin (b : Builtin)
  deriving DecidableEq, Repr

structure Reference where
  name : String
  target : Option Target
  qualifiers : Qualifiers
  deriving DecidableEq, Repr

namespace Reference

def unlinked (name : String) (qualifiers : Qualifiers) : Reference :=
  ⟨name, none, qualifiers⟩

def isConst (r : Reference) : Bool :=
  r.qualifiers.has .const

def isVolatile (r : Reference) : Bool :=
  r.qualifiers.has .volatile

def isLinked (r : Reference) : Bool :=
  r.target.isSome

def unlink (r : Reference) : Reference :=
  { r with target := none }

def same (r s : Reference) : Bool :=
  r.name == s.name && r.qualifiers == s.qualifiers

end Reference

inductive CallingConvention where
  | winapi
  | cdecl
  | stdCall
  | thisCall
  | fastCall
  deriving DecidableEq, Repr

namespace CallingConvention

def all : List CallingConvention := [.winapi, .cdecl, .stdCall, .thisCall, .fastCall]

def managedName : CallingConvention → String
  | .winapi => "Winapi"
  | .cdecl => "Cdecl"
  | .stdCall => "StdCall"
  | .thisCall => "ThisCall"
  | .fastCall => "FastCall"

def word : CallingConvention → String
  | .winapi => "winapi"
  | .cdecl => "cdecl"
  | .stdCall => "std_call"
  | .thisCall => "this_call"
  | .fastCall => "fast_call"

def ofWord? (w : String) : Option CallingConvention :=
  all.find? (·.word == w)

end CallingConvention

inductive Direction where
  | input
  | output
  | both
  deriving DecidableEq, Repr

namespace Direction

def all : List Direction := [.input, .output, .both]

def managedName : Direction → String
  | .input => "In"
  | .output => "Out"
  | .both => "Ref"

def word : Direction → String
  | .input => "in"
  | .output => "out"
  | .both => "ref"

def ofWord? (w : String) : Option Direction :=
  all.find? (·.word == w)

end Direction

structure Member (τ : Type) where
  name : String
  type : τ

structure Record (τ : Type) where
  name : String
  members : List (Member τ)

def Record.find? {τ : Type} (r : Record τ) (name : String) : Option (Member τ) :=
  r.members.find? (·.name == name)

structure Parameter (τ : Type) where
  name : String
  type : τ
  direction : Direction

structure Signature (τ : Type) where
  name : String
  returns : τ
  params : List (Parameter τ)
  convention : Option CallingConvention

structure Enumerator where
  name : String
  expr : Option String
  value : Option TypedLiteral
  deriving DecidableEq

structure Enumeration where
  name : String
  members : List Enumerator
  deriving DecidableEq

def Enumeration.find? (e : Enumeration) (name : String) : Option Enumerator :=
  e.members.find? (·.name == name)

inductive RecordKind where
  | struct
  | union
  deriving DecidableEq, Repr

def RecordKind.word : RecordKind → String
  | .struct => "struct"
  | .union => "union"

inductive NativeType where
  | builtin (b : Builtin)
  | pointer (pointee : NativeType)
  | array (element : NativeType) (rank : UInt32) (length : Option ArrayLength)
  | synonym (name : String) (target : NativeType)
  | named (r : Reference)
  | record (kind : RecordKind) (body : Record NativeType)
  | enumeration (e : Enumeration)
  | function (s : Signature NativeType)

namespace NativeType

instance : Inhabited NativeType := ⟨.builtin .void⟩

def void : NativeType := .builtin .void

def isVoid : NativeType → Bool
  | .builtin b => b.isVoid
  | _ => false

def word : NativeType → String
  | .builtin _ => "builtin"
  | .pointer _ => "pointer"
  | .array _ _ _ => "array"
  | .synonym _ _ => "type_def"
  | .named _ => "named"
  | .record kind _ => kind.word
  | .enumeration _ => "enum"
  | .function _ => "function_pointer"

def someName (name : String) : Option String :=
  if name.isEmpty then none else some name

def name? : NativeType → Option String
  | .synonym name _ => someName name
  | .named r => someName r.name
  | .record _ body => someName body.name
  | .enumeration e => someName e.name
  | .function s => someName s.name
  | .builtin _ | .pointer _ | .array _ _ _ => none

def lengthText : Option ArrayLength → String
  | some (.fixed n) => "[" ++ toString n.toNat ++ "]"
  | some (.constant name) => "[" ++ name ++ "]"
  | none => "[]"

def anonymous (name other : String) : String :=
  if name.isEmpty then other else name

def display : NativeType → String
  | .builtin b => b.spelling
  | .pointer pointee => pointee.display ++ "*"
  | .array element _ length => element.display ++ lengthText length
  | .synonym name _ => name
  | .named r => if r.isConst then "const " ++ r.name else r.name
  | .record .struct body => anonymous body.name "<anonymous struct>"
  | .record .union body => anonymous body.name "<anonymous union>"
  | .enumeration e => anonymous e.name "<anonymous enum>"
  | .function s => anonymous s.name "<function pointer>"

end NativeType

end HeaderBinding
