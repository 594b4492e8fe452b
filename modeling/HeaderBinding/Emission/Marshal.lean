import HeaderBinding.Emission.Draft
import HeaderBinding.Graph.Canonical

namespace HeaderBinding

open Managed (TypeRef Attribute ConstantExpr)

inductive Position where
  | parameter (direction : Direction)
  | field
  | result
  deriving DecidableEq, Repr

structure Marshalled where
  type : TypeRef
  attributes : List Attribute
  direction : Option Direction
  isWide : Bool
  deriving DecidableEq

namespace Marshalled

def plain (t : TypeRef) : Marshalled := ⟨t, [], none, false⟩

def handle : Marshalled := plain .intPtr

def marshalAs (form : String) (named : List Managed.Argument) : Attribute :=
  ⟨"MarshalAs", ⟨none, .enumMember "UnmanagedType" form⟩ :: named⟩

def isWideChar (b : Builtin) : Bool :=
  b.kind == .wideChar

def string (t : TypeRef) (b : Builtin) : Marshalled :=
  ⟨t, [marshalAs (if isWideChar b then "LPWStr" else "LPStr") []], none, isWideChar b⟩

def builtin (o : EmitOptions) (b : Builtin) : Marshalled :=
  ⟨.primitive ((o.primitives.get? b).getD .intPtr),
    if b.kind = .boolean then [marshalAs "I1" []] else [], none, false⟩

def byReference (declared : Direction) (m : Marshalled) : Marshalled :=
  { m with direction := some (if declared = .output then .output else .both) }

def element (m : Marshalled) : Marshalled :=
  match m.type with
  | .primitive .void => handle
  | .primitive _ => { m with direction := none, isWide := false }
  | .named name => plain (.named name)
  | _ => handle

end Marshalled

def bodyName (name : String) (owner : Option String) (place : String) : String :=
  if name.isEmpty then owner.getD place else name

def placeName (name other : String) (index : Nat) : String :=
  if name.isEmpty then other ++ toString (index + 1) else name

section

variable (o : EmitOptions) (s : Store)

def boundValue? (name : String) : Option TypedLiteral := do
  let c ← s.constants.get? name
  let v ← c.value
  v.narrowedTo? .int32

def unusableBound (subject : Option Key) (name : String) : Diagnostic :=
  .report .unresolvedConstant subject
    ("array bound '" ++ name ++ "' has no usable size; member left as IntPtr")

def sizeOfArray : Option ArrayLength → Emit (Option ConstantExpr)
  | none => pure none
  | some (.fixed n) =>
    pure (if LiteralType.int32.holds n.toNat then some (.ofInt32 n.toInt64.toInt32) else none)
  | some (.constant name) => do
    if (boundValue? s name).isSome then
      modify fun d => { d with bounds := d.bounds.insert name }
      return some (.constant o.constantsClass name)
    else
      modify fun d => { d with diagnostics := d.diagnostics ++ [unusableBound d.subject name] }
      return none

def underlyingType? (ns : List Int) : Option LiteralType :=
  match (LiteralType.widening.find? fun t => ns.all t.holds).getD .int64 with
  | .int32 => none
  | t => some t

def enumDecl (name : String) (e : Enumeration) : Managed.TypeDecl :=
  let values := e.members.filterMap fun m => m.value.map (m.name, ·)
  let underlying := underlyingType? (values.filterMap fun (_, v) => v.literal.toInt?)
  let declared := underlying.getD .int32
  ⟨name, [], .enumeration (underlying.bind Managed.Primitive.ofLiteralType?)
    (values.map fun (member, v) => ⟨member, (v.narrowedTo? declared).getD v⟩)⟩

def unvaluedMembers (name : String) (e : Enumeration) : List SkippedItem :=
  (e.members.filter (·.value.isNone)).map fun m =>
    ⟨.definedType name, some m.name, "value never resolved"⟩

def declareOnce (name : String) (body : NativeType) (make : String → Emit Managed.TypeDecl) :
    Emit TypeRef := do
  let (given, isNew) ← modifyGet (Draft.claim name body)
  if isNew then
    let t ← make given
    modify (Draft.declare t)
  return .named given

def emitEnum (name : String) (e : Enumeration) : Emit TypeRef :=
  declareOnce name (.enumeration e) fun given => do
    modify fun d => { d with skipped := d.skipped ++ unvaluedMembers given e }
    return enumDecl given e

variable (use : NativeType → Position → String → Emit Marshalled)

def emitField (kind : RecordKind) (record : String) (index : Nat) (m : Member NativeType) :
    Emit (Managed.Field × Bool) := do
  let name := placeName m.name "Anonymous" index
  let u ← use m.type .field (record ++ "_" ++ name)
  let offset : List Attribute := match kind with
    | .struct => []
    | .union => [⟨"FieldOffset", [⟨none, .ofInt32 0⟩]⟩]
  return (⟨name, u.type, offset ++ u.attributes, none, false⟩, u.isWide)

def emitFields (kind : RecordKind) (record : String) (index : Nat) :
    List (Member NativeType) → Emit (List (Managed.Field × Bool))
  | [] => pure []
  | m :: rest => do
    let f ← emitField use kind record index m
    return f :: (← emitFields kind record (index + 1) rest)

def layout (kind : RecordKind) (isWide : Bool) : Attribute :=
  ⟨"StructLayout",
    ⟨none, .enumMember "LayoutKind" (match kind with
      | .struct => "Sequential"
      | .union => "Explicit")⟩ ::
    if isWide then [⟨some "CharSet", .enumMember "CharSet" "Unicode"⟩] else []⟩

def recordDecl (given : String) (kind : RecordKind) (body : Record NativeType) :
    Emit Managed.TypeDecl := do
  let outer := (← get).subject
  modify fun d => { d with subject := some (.definedType given) }
  let fields ← emitFields use kind given 0 body.members
  modify fun d => { d with subject := outer }
  return ⟨given, [layout kind (fields.any (·.2))], .record (fields.map (·.1))⟩

def emitRecord (name : String) (kind : RecordKind) (body : Record NativeType) : Emit TypeRef :=
  declareOnce name (.record kind body) fun given => recordDecl use given kind body

def emitParam (method : String) (index : Nat) (p : Parameter NativeType) : Emit Managed.Param := do
  let name := placeName p.name "param" index
  let u ← use p.type (.parameter p.direction) (method ++ "_" ++ name)
  return ⟨name, u.type, u.direction.getD p.direction, u.attributes⟩

def emitParams (method : String) (index : Nat) :
    List (Parameter NativeType) → Emit (List Managed.Param)
  | [] => pure []
  | p :: rest => do
    let q ← emitParam use method index p
    return q :: (← emitParams method (index + 1) rest)

def emitMethod (name : String) (returns : NativeType) (params : List (Parameter NativeType)) :
    Emit Managed.Method := do
  let u ← use returns .result (name ++ "_return")
  let params ← emitParams use name 0 params
  return ⟨name, u.type, u.attributes, params, []⟩

def conventionValue (c : CallingConvention) : ConstantExpr :=
  .enumMember "CallingConvention" c.managedName

def conventionAttributes (f : Signature NativeType) : List Attribute :=
  match f.convention with
  | some c =>
    if c = o.convention then [] else [⟨"UnmanagedFunctionPointer", [⟨none, conventionValue c⟩]⟩]
  | none => []

def delegateDecl (given : String) (f : Signature NativeType) : Emit Managed.TypeDecl := do
  let signature ← emitMethod use given f.returns f.params
  return ⟨given, conventionAttributes o f, .delegate signature⟩

def emitDelegate (name : String) (f : Signature NativeType) : Emit TypeRef :=
  declareOnce name (.function f) fun given => delegateDecl o use given f

def marshalPointer (pointee : NativeType) (position : Position) (place : String) :
    Emit Marshalled := do
  let c := pointee.canonical s
  match c.denoted, position with
  | .unresolved _, _ | .cycle _, _ => return .handle
  | .builtin b, position =>
    if b.isVoid then return .handle
    else if b.isCharacter then
      match position with
      | .parameter _ => return .string (if c.isConst then .string else .stringBuilder) b
      | .field => return .string .string b
      | .result => return .handle
    else reference position
  | _, .field =>
    if c.isRecord then
      let u ← use pointee .field place
      return .plain (.pointer u.type)
    else return .handle
  | _, position => reference position
where
  reference : Position → Emit Marshalled
    | .parameter declared => do
      let u ← use pointee .field place
      return u.element.byReference declared
    | .field | .result => return .handle

def marshalArray (element : NativeType) (length : Option ArrayLength) (place : String) :
    Emit Marshalled := do
  match ← sizeOfArray o s length with
  | none => return .handle
  | some size =>
    let sized (form : String) : Attribute := Marshalled.marshalAs form [⟨some "SizeConst", size⟩]
    match (element.canonical s).builtin? with
    | some b =>
      if b.isCharacter then return ⟨.string, [sized "ByValTStr"], none, Marshalled.isWideChar b⟩
      else elements sized
    | none => elements sized
where
  elements (sized : String → Attribute) : Emit Marshalled := do
    let u ← use element .field place
    return ⟨.array u.type, [sized "ByValArray"], none, false⟩

def marshalStep (t : NativeType) (position : Position) (place : String) : Emit Marshalled := do
  let c := t.canonical s
  match c.denoted with
  | .builtin b => return .builtin o b
  | .definition (.record kind body) => return .plain (← emitRecord use body.name kind body)
  | .definition (.enumeration e) => return .plain (← emitEnum e.name e)
  | .structural (.pointer pointee) => marshalPointer s use pointee position place
  | .structural (.array element _ length) =>
    match position with
    | .field => marshalArray o s use element length place
    | .parameter _ => marshalPointer s use element position place
    | .result => return .handle
  | .structural (.record kind body) =>
    return .plain (← emitRecord use (bodyName body.name c.owner place) kind body)
  | .structural (.enumeration e) => return .plain (← emitEnum (bodyName e.name c.owner place) e)
  | .structural (.function f) => return .plain (← emitDelegate o use (bodyName f.name c.owner place) f)
  | .structural _ | .unresolved _ | .cycle _ => return .handle

end

def marshalWithin (o : EmitOptions) (s : Store) :
    Nat → NativeType → Position → String → Emit Marshalled
  | 0, _, _, _ => failure
  | depth + 1, t, position, place => marshalStep o s (marshalWithin o s depth) t position place

end HeaderBinding
