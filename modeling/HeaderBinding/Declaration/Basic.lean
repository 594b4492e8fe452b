import HeaderBinding.Native.Same
import HeaderBinding.Native.Shape
import HeaderBinding.Text.Blank

namespace HeaderBinding

structure Typedef where
  name : String
  target : NativeType

inductive Definition where
  | record (kind : RecordKind) (body : Record NativeType)
  | enumeration (e : Enumeration)

inductive ConstantKind where
  | preprocessor
  | declared
  deriving DecidableEq, Repr

structure Constant where
  name : String
  expr : String
  kind : ConstantKind
  value : Option TypedLiteral
  deriving DecidableEq

structure Procedure where
  name : String
  returns : NativeType
  params : List (Parameter NativeType)
  convention : Option CallingConvention
  module : Option String

class Declaration (α : Type) where
  category : Category
  name : α → String
  same : α → α → Bool
  sameContent : α → α → Bool
  roots : α → List NativeType
  mapRootsM {m : Type → Type} [Monad m] : (NativeType → m NativeType) → α → m α

namespace Declaration

variable {α : Type} [Declaration α]

def key (a : α) : Key :=
  ⟨category α, name a⟩

def mapRoots (f : NativeType → NativeType) (a : α) : α :=
  mapRootsM (m := Id) f a

def mapReferencesM {m : Type → Type} [Monad m] (f : Reference → m Reference) (a : α) : m α :=
  mapRootsM (NativeType.mapReferencesM f) a

def references (a : α) : List Reference :=
  (roots a).flatMap NativeType.references

end Declaration

namespace Typedef

def same (a b : Typedef) : Bool :=
  a.name == b.name && a.target.same b.target

def sameContent (a b : Typedef) : Bool :=
  a.name == b.name && a.target.shape.same b.target.shape

instance : Declaration Typedef where
  category := .synonym
  name := Typedef.name
  same := same
  sameContent := sameContent
  roots d := [d.target]
  mapRootsM f d := return { d with target := ← f d.target }

end Typedef

namespace Definition

def name : Definition → String
  | .record _ body => body.name
  | .enumeration e => e.name

def word : Definition → String
  | .record kind _ => kind.word
  | .enumeration _ => "enum"

def body? : Definition → Option (Record NativeType)
  | .record _ body => some body
  | .enumeration _ => none

def memberTypes : Definition → List NativeType
  | .record _ body => body.members.map (·.type)
  | .enumeration _ => []

def toType : Definition → NativeType
  | .record kind body => .record kind body
  | .enumeration e => .enumeration e

def same (a b : Definition) : Bool :=
  a.toType.same b.toType

def shape : Definition → Definition
  | .record kind body => .record kind ⟨body.name, NativeType.shapeMembers body.members⟩
  | .enumeration e => .enumeration e

def sameContent (a b : Definition) : Bool :=
  a.shape.same b.shape

variable {m : Type → Type} [Monad m]

def mapRootsM (f : NativeType → m NativeType) : Definition → m Definition
  | .record kind body => do
    let members ← body.members.mapM fun x => return { x with type := ← f x.type }
    return .record kind ⟨body.name, members⟩
  | .enumeration e => pure (.enumeration e)

def mapEnumsM (f : Enumeration → m Enumeration) : Definition → m Definition
  | .enumeration e => return .enumeration (← f e)
  | d => d.mapRootsM (NativeType.mapEnumsM f)

instance : Declaration Definition where
  category := .definedType
  name := name
  same := same
  sameContent := sameContent
  roots := memberTypes
  mapRootsM := mapRootsM

end Definition

namespace Constant

def ofBody (name body : String) : Constant :=
  ⟨name, Text.trim body, .preprocessor, none⟩

def same (a b : Constant) : Bool :=
  a.name == b.name && a.expr == b.expr && a.kind == b.kind && sameOption TypedLiteral.same a.value b.value

instance : Declaration Constant where
  category := .constant
  name := Constant.name
  same := same
  sameContent := same
  roots _ := []
  mapRootsM _ d := pure d

end Constant

namespace Procedure

def same (a b : Procedure) : Bool :=
  a.name == b.name && a.returns.same b.returns && NativeType.sameParams a.params b.params &&
    a.convention == b.convention && a.module == b.module

def shape (p : Procedure) : Procedure :=
  { p with returns := p.returns.shape, params := NativeType.shapeParams p.params }

def sameContent (a b : Procedure) : Bool :=
  a.shape.same b.shape

def effectiveConvention (standard : CallingConvention) (p : Procedure) : CallingConvention :=
  p.convention.getD standard

def mapRootsM {m : Type → Type} [Monad m] (f : NativeType → m NativeType) (p : Procedure) :
    m Procedure := do
  let returns ← f p.returns
  let params ← p.params.mapM fun x => return { x with type := ← f x.type }
  return { p with returns := returns, params := params }

instance : Declaration Procedure where
  category := .procedure
  name := Procedure.name
  same := same
  sameContent := sameContent
  roots p := p.returns :: p.params.map (·.type)
  mapRootsM := mapRootsM

end Procedure

end HeaderBinding
