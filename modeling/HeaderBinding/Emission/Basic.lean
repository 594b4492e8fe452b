import HeaderBinding.Emission.Marshal

namespace HeaderBinding

open Managed (Attribute ConstantExpr)

structure Emission where
  bindings : Managed.Bindings
  diagnostics : Diagnostics
  skipped : List SkippedItem

namespace Store

def nodeCount (s : Store) : Nat :=
  (s.typedefs.toList.flatMap fun d => d.target.visit).length +
    (s.definitions.toList.flatMap fun d => d.toType.visit).length +
    (s.procedures.toList.flatMap fun p => (Declaration.roots p).flatMap NativeType.visit).length

def depthBound (s : Store) : Nat :=
  (s.nodeCount + 3) * (s.nodeCount + 3) * (s.nodeCount + 3)

end Store

section

variable (o : EmitOptions) (s : Store) (use : NativeType → Position → String → Emit Marshalled)

def emitDefinition : Definition → Emit Unit
  | .record kind body => do let _ ← emitRecord use body.name kind body
  | .enumeration e => do let _ ← emitEnum e.name e

def emitTypedef (d : Typedef) : Emit Unit := do
  let c := d.target.canonical s
  match c.denoted with
  | .structural (.record kind body) => do
    let _ ← emitRecord use (bodyName body.name c.owner d.name) kind body
  | .structural (.enumeration e) => do
    let _ ← emitEnum (bodyName e.name c.owner d.name) e
  | .structural (.function f) => do
    let _ ← emitDelegate o use (bodyName f.name c.owner d.name) f
  | _ => pure ()

def importAttribute (p : Procedure) : Attribute :=
  let convention := p.effectiveConvention o.convention
  ⟨"DllImport",
    [⟨none, .ofString (p.module.getD o.unknownModule)⟩, ⟨some "EntryPoint", .ofString p.name⟩] ++
      if convention = o.convention then []
      else [⟨some "CallingConvention", conventionValue convention⟩]⟩

def emitProcedure (p : Procedure) : Emit Managed.Method := do
  let m ← emitMethod use p.name p.returns p.params
  return { m with attributes := m.attributes ++ [importAttribute o p] }

def constantField (isBound : Bool) (name : String) (v : TypedLiteral) : Managed.Field :=
  let v := if isBound then (v.narrowedTo? .int32).getD v else v
  let type : Managed.TypeRef := match Managed.Primitive.ofLiteralType? v.type with
    | some p => .primitive p
    | none => .string
  ⟨name, type, [], some (.literal v), true⟩

def emitConstant (c : Constant) : Emit (Option Managed.Field) := do
  match c.value with
  | some v => return some (constantField ((← get).bounds.contains c.name) c.name v)
  | none =>
    modify (Draft.skip ⟨Declaration.key c, none, "value never resolved"⟩)
    return none

def container (name : String) (fields : List Managed.Field) (methods : List Managed.Method) :
    List Managed.TypeDecl :=
  if fields.isEmpty && methods.isEmpty then [] else [⟨name, [], .container fields methods⟩]

def emitStore : Emit (List Managed.TypeDecl) := do
  s.definitions.toList.forM (emitDefinition use)
  s.typedefs.toList.forM (emitTypedef o s use)
  let methods ← s.procedures.toList.mapM (emitProcedure o use)
  let fields ← s.constants.toList.mapM emitConstant
  return container o.constantsClass (fields.filterMap id) [] ++ container o.methodsClass [] methods

end

namespace Store

def emitWithin (depth : Nat) (o : EmitOptions) (s : Store) : Option Emission := do
  let (classes, d) ← (emitStore o s (marshalWithin o s depth)).run .empty
  return ⟨⟨d.types.toList ++ classes⟩, d.diagnostics, d.skipped⟩

def emitFrom (s : Store) (o : EmitOptions) (depth : Nat) : Option Emission :=
  match s.emitWithin depth o with
  | some e => some e
  | none => s |>.emitFrom o (2 * depth)
partial_fixpoint

def emit? (s : Store) (o : EmitOptions) : Option Emission :=
  s.emitFrom o s.depthBound

end Store

end HeaderBinding
