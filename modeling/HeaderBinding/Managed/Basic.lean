import HeaderBinding.Managed.Primitive
import HeaderBinding.Native.Basic

namespace HeaderBinding.Managed

inductive TypeRef where
  | primitive (p : Primitive)
  | named (name : String)
  | pointer (pointee : TypeRef)
  | array (element : TypeRef)
  | string
  | stringBuilder
  deriving DecidableEq, Repr

namespace TypeRef

def intPtr : TypeRef := .primitive .intPtr

def void : TypeRef := .primitive .void

end TypeRef

inductive ConstantExpr where
  | literal (v : TypedLiteral)
  | enumMember (type member : String)
  | constant (container name : String)
  deriving DecidableEq

namespace ConstantExpr

def ofString (s : String) : ConstantExpr := .literal (.ofString s)

def ofInt32 (n : Int32) : ConstantExpr := .literal ⟨.int n.toInt64, .int32⟩

def literal? : ConstantExpr → Option TypedLiteral
  | .literal v => some v
  | _ => none

end ConstantExpr

structure Argument where
  name : Option String
  value : ConstantExpr
  deriving DecidableEq

structure Attribute where
  name : String
  args : List Argument
  deriving DecidableEq

namespace Attribute

def positional? (a : Attribute) : Option ConstantExpr :=
  (a.args.find? (·.name.isNone)).map (·.value)

def named? (a : Attribute) (name : String) : Option ConstantExpr :=
  (a.args.find? (·.name == some name)).map (·.value)

end Attribute

def findAttribute? (attributes : List Attribute) (name : String) : Option Attribute :=
  attributes.find? (·.name == name)

structure Field where
  name : String
  type : TypeRef
  attributes : List Attribute
  initial : Option ConstantExpr
  isConst : Bool
  deriving DecidableEq

structure Param where
  name : String
  type : TypeRef
  direction : Direction
  attributes : List Attribute
  deriving DecidableEq

structure Method where
  name : String
  returns : TypeRef
  returnAttributes : List Attribute
  params : List Param
  attributes : List Attribute
  deriving DecidableEq

structure EnumMember where
  name : String
  value : TypedLiteral
  deriving DecidableEq

inductive Body where
  | record (fields : List Field)
  | enumeration (underlying : Option Primitive) (members : List EnumMember)
  | delegate (signature : Method)
  | container (fields : List Field) (methods : List Method)
  deriving DecidableEq

structure TypeDecl where
  name : String
  attributes : List Attribute
  body : Body
  deriving DecidableEq

namespace TypeDecl

def word (d : TypeDecl) : String :=
  match d.body with
  | .record _ => "struct"
  | .enumeration _ _ => "enum"
  | .delegate _ => "delegate"
  | .container _ _ => "class"

def fields (d : TypeDecl) : List Field :=
  match d.body with
  | .record fields | .container fields _ => fields
  | .enumeration _ _ | .delegate _ => []

def methods (d : TypeDecl) : List Method :=
  match d.body with
  | .container _ methods => methods
  | _ => []

def members (d : TypeDecl) : List EnumMember :=
  match d.body with
  | .enumeration _ members => members
  | _ => []

def signature? (d : TypeDecl) : Option Method :=
  match d.body with
  | .delegate signature => some signature
  | _ => none

end TypeDecl

structure Bindings where
  types : List TypeDecl
  deriving DecidableEq

namespace Bindings

def find? (b : Bindings) (name : String) : Option TypeDecl :=
  b.types.find? (·.name == name)

end Bindings

end HeaderBinding.Managed
