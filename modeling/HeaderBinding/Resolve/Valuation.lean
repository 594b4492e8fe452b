import HeaderBinding.Expr.Eval
import HeaderBinding.Graph.Canonical
import Std.Data.HashSet

namespace HeaderBinding

def Node.castTarget (s : Store) : Node → CastTarget
  | .definition (.enumeration _) => .integer .int32
  | .definition (.record _ _) => .noLiteral
  | .synonym d =>
    match (d.target.canonical s).denoted with
    | .builtin b => .ofBuiltin b
    | .definition (.enumeration _) | .structural (.enumeration _) => .integer .int32
    | _ => .noLiteral

namespace Store

def castTarget (s : Store) (name : String) : CastTarget :=
  match s.byName? name with
  | some node => node.castTarget s
  | none => .ofSpelling name

def castTable (s : Store) : Std.HashMap String CastTarget :=
  enter .definition s.definitions.toList (enter .synonym s.typedefs.toList ∅)
where
  enter {α : Type} [Declaration α] (node : α → Node) (entries : List α) (casts : Std.HashMap String CastTarget) :
      Std.HashMap String CastTarget :=
    entries.foldl (fun casts a => casts.insert (Declaration.name a) ((node a).castTarget s)) casts

end Store

def CastTarget.among (casts : Std.HashMap String CastTarget) (name : String) : CastTarget :=
  match casts[name]? with
  | some target => target
  | none => .ofSpelling name

structure Knowledge where
  values : Std.HashMap String TypedLiteral
  pending : Std.HashSet String

namespace Knowledge

def nothing : Knowledge := ⟨∅, ∅⟩

def define (k : Knowledge) (name : String) (v : TypedLiteral) : Knowledge :=
  ⟨k.values.insert name v, k.pending.erase name⟩

def defer (k : Knowledge) (name : String) : Knowledge :=
  if k.values.contains name then k else { k with pending := k.pending.insert name }

def learn (k : Knowledge) (name : String) : Option TypedLiteral → Knowledge
  | some v => k.define name v
  | none => k.defer name

def lookup (k : Knowledge) (name : String) : Lookup :=
  match k.values[name]? with
  | some v => .found v
  | none => if k.pending.contains name then .pending else .unknown

def context (k : Knowledge) (target : String → CastTarget) : EvalContext :=
  ⟨k.lookup, target⟩

end Knowledge

structure Progress where
  known : Knowledge
  failures : Std.HashMap String EvalError
  evaluated : Nat

namespace Progress

def succeed (p : Progress) (name : String) (v : TypedLiteral) : Progress :=
  { p with known := p.known.define name v, evaluated := p.evaluated + 1 }

def fail (p : Progress) (name : String) (e : EvalError) : Progress :=
  if e.isPending then p else { p with failures := p.failures.insert name e }

def attempt (name : String) (value : Option TypedLiteral)
    (evaluate : Knowledge → Except EvalError TypedLiteral) :
    StateM Progress (Option TypedLiteral) := fun p =>
  if value.isSome || p.failures.contains name then (value, p)
  else
    match evaluate p.known with
    | .ok v => (some v, p.succeed name v)
    | .error e => (none, p.fail name e)

end Progress

def TypedLiteral.successor (v : TypedLiteral) : Except EvalError TypedLiteral :=
  match v.literal.toInt? with
  | none => .error (.unsupportedOperator ("implicit successor of " ++ v.text))
  | some n =>
    match TypedLiteral.integerAs? (n + 1) v.type with
    | some w => .ok w
    | none =>
      match TypedLiteral.integer? (n + 1) with
      | some w => .ok w
      | none => .error .outOfRange

inductive Previous where
  | nothing
  | unvalued
  | valued (v : TypedLiteral)

def Previous.ofValue : Option TypedLiteral → Previous
  | some v => .valued v
  | none => .unvalued

section

variable (target : String → CastTarget)

def evaluateConstant (c : Constant) : StateM Progress Constant := do
  let v ← Progress.attempt c.name c.value fun k => evaluateText (k.context target) c.expr
  return { c with value := v }

def enumeratorValue (k : Knowledge) (previous : Previous) (m : Enumerator) :
    Except EvalError TypedLiteral :=
  match m.expr, previous with
  | some expr, _ => evaluateText (k.context target) expr
  | none, .nothing => .ok ⟨.int 0, .int32⟩
  | none, .valued v => v.successor
  | none, .unvalued => .error (.pendingIdentifier m.name)

def evaluateEnumerator (previous : Previous) (m : Enumerator) : StateM Progress Enumerator := do
  let v ← Progress.attempt m.name m.value fun k => enumeratorValue target k previous m
  return { m with value := v }

def evaluateMembers (previous : Previous) : List Enumerator → StateM Progress (List Enumerator)
  | [] => pure []
  | m :: rest => do
    let m ← evaluateEnumerator target previous m
    return m :: (← evaluateMembers (.ofValue m.value) rest)

def evaluateEnumeration (e : Enumeration) : StateM Progress Enumeration := do
  return { e with members := ← evaluateMembers target .nothing e.members }

def sweep (s : Store) : StateM Progress Store := do
  let constants ← s.constants.mapM (evaluateConstant target)
  let typedefs ← s.typedefs.mapM fun d =>
    return { d with target := ← d.target.mapEnumsM (evaluateEnumeration target) }
  let definitions ← s.definitions.mapM (Definition.mapEnumsM (evaluateEnumeration target))
  return { s with constants := constants, typedefs := typedefs, definitions := definitions }

def sweeps (limit : Nat) (s : Store) (p : Progress) : Store × Progress × Nat :=
  match limit with
  | 0 => (s, p, 0)
  | limit + 1 =>
    let (t, q) := (sweep target s).run p
    if q.evaluated = p.evaluated then (t, q, 1)
    else
      let (t, q, passes) := sweeps limit t q
      (t, q, passes + 1)

end

def Definition.enumerations : Definition → List Enumeration
  | .enumeration e => [e]
  | d => d.memberTypes.flatMap NativeType.enumerations

namespace Store

def enumerations (s : Store) : List (Key × Enumeration) :=
  s.typedefs.toList.flatMap (fun d => d.target.enumerations.map (Declaration.key d, ·)) ++
    s.definitions.toList.flatMap fun d => d.enumerations.map (Declaration.key d, ·)

def knowledge (s : Store) : Knowledge :=
  let constants := s.constants.toList.foldl (fun k c => k.learn c.name c.value) .nothing
  s.enumerations.foldl (fun k (_, e) => e.members.foldl (fun k m => k.learn m.name m.value) k) constants

def unvalued (subject : Key) (name : String) : Option EvalError → Diagnostic
  | some .emptyExpression =>
    .report .unresolvedConstant (some subject) ("'" ++ name ++ "' has no value")
  | some e =>
    .report .unrepresentableExpression (some subject)
      ("'" ++ name ++ "' cannot be represented: " ++ e.message)
  | none =>
    .report .unresolvedConstant (some subject)
      ("'" ++ name ++ "' depends on values that never resolved")

def unvaluedItems (s : Store) : List (Key × String) :=
  (s.constants.toList.filter (·.value.isNone)).map (fun c => (Declaration.key c, c.name)) ++
    s.enumerations.flatMap fun (k, e) =>
      (e.members.filter (·.value.isNone)).map fun m => (k, m.name)

end Store

structure ValueReport where
  evaluated : Nat
  unresolved : Nat
  passes : Nat
  diagnostics : Diagnostics

namespace Store

def swept (maxPasses : Option Nat) (s : Store) : Store × Progress × Nat :=
  sweeps s.castTarget (max 1 (maxPasses.getD s.knowledge.pending.size)) s ⟨s.knowledge, ∅, 0⟩

def valuate (maxPasses : Option Nat) (s : Store) : Store × ValueReport :=
  if s.knowledge.pending.size = 0 then (s, ⟨0, 0, 0, []⟩)
  else
    let (t, p, passes) := s.swept maxPasses
    let items := t.unvaluedItems
    (t, ⟨p.evaluated, items.length, passes,
      items.map fun (subject, name) => unvalued subject name p.failures[name]?⟩)

end Store

end HeaderBinding
