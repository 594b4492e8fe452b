import HeaderBinding.Resolve.Valuation

namespace HeaderBinding

inductive Rule where
  | written (expr : String)
  | first
  | next (before : String)

def Rule.of (before : Option String) : Option String → Rule
  | some expr => .written expr
  | none =>
    match before with
    | some name => .next name
    | none => .first

structure Item where
  name : String
  rule : Rule
  value : Option TypedLiteral

def Item.evaluate (ctx : EvalContext) (i : Item) : Except EvalError TypedLiteral :=
  match i.rule with
  | .written expr => evaluateText ctx expr
  | .first => .ok ⟨.int 0, .int32⟩
  | .next before =>
    match ctx.value before with
    | .found v => v.successor
    | _ => .error (.pendingIdentifier i.name)

abbrev Values := String → Option TypedLiteral

namespace Item

def assign (f : Values) (i : Item) : Item :=
  { i with value := f i.name }

def ofMembers (before : Option String) : List Enumerator → List Item
  | [] => []
  | m :: rest => ⟨m.name, .of before m.expr, m.value⟩ :: ofMembers (some m.name) rest

end Item

namespace Enumeration

def items (e : Enumeration) : List Item :=
  Item.ofMembers none e.members

def assign (f : Values) (e : Enumeration) : Enumeration :=
  { e with members := e.members.map fun m => { m with value := f m.name } }

end Enumeration

namespace NativeType

def items (t : NativeType) : List Item :=
  t.enumerations.flatMap Enumeration.items

def assign (f : Values) (t : NativeType) : NativeType :=
  t.mapEnumsM (m := Id) (Enumeration.assign f)

end NativeType

namespace Constant

def item (c : Constant) : Item :=
  ⟨c.name, .written c.expr, c.value⟩

def assign (f : Values) (c : Constant) : Constant :=
  { c with value := f c.name }

end Constant

def Typedef.assign (f : Values) (d : Typedef) : Typedef :=
  { d with target := d.target.assign f }

namespace Definition

def items (d : Definition) : List Item :=
  d.enumerations.flatMap Enumeration.items

def assign (f : Values) (d : Definition) : Definition :=
  d.mapEnumsM (m := Id) (Enumeration.assign f)

end Definition

namespace Store

def items (s : Store) : List Item :=
  s.constants.toList.map Constant.item ++
    (s.typedefs.toList.flatMap (·.target.items) ++ s.definitions.toList.flatMap Definition.items)

def assign (f : Values) (s : Store) : Store :=
  { s with
    constants := s.constants.map (Constant.assign f)
    typedefs := s.typedefs.map (Typedef.assign f)
    definitions := s.definitions.map (Definition.assign f) }

end Store

end HeaderBinding
