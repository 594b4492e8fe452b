import HeaderBinding.Diagnostic
import HeaderBinding.Store.Staging
import HeaderBinding.Store.Table

namespace HeaderBinding

structure Store where
  typedefs : Table Typedef
  definitions : Table Definition
  constants : Table Constant
  procedures : Table Procedure
  stagedTypedefs : Staging Typedef
  stagedDefinitions : Staging Definition
  stagedConstants : Staging Constant
  stagedProcedures : Staging Procedure
  fastLoad : Bool

inductive Node where
  | synonym (d : Typedef)
  | definition (d : Definition)

namespace Node

def name : Node → String
  | .synonym d => d.name
  | .definition d => d.name

def key : Node → Key
  | .synonym d => .synonym d.name
  | .definition d => .definedType d.name

def roots : Node → List NativeType
  | .synonym d => [d.target]
  | .definition d => d.memberTypes

end Node

structure CommitReport where
  committed : Nat
  skipped : Nat
  diagnostics : Diagnostics

namespace CommitReport

def empty : CommitReport := ⟨0, 0, []⟩

def isClean (r : CommitReport) : Bool :=
  !r.diagnostics.hasErrors

def append (r s : CommitReport) : CommitReport :=
  ⟨r.committed + s.committed, r.skipped + s.skipped, r.diagnostics ++ s.diagnostics⟩

end CommitReport

namespace Store

def empty : Store :=
  ⟨.empty, .empty, .empty, .empty, .empty, .empty, .empty, .empty, false⟩

instance : Inhabited Store := ⟨.empty⟩

def addTypedef (s : Store) (d : Typedef) : Store :=
  { s with stagedTypedefs := s.stagedTypedefs.push (!s.fastLoad) d }

def addDefinition (s : Store) (d : Definition) : Store :=
  { s with stagedDefinitions := s.stagedDefinitions.push (!s.fastLoad) d }

def addConstant (s : Store) (d : Constant) : Store :=
  { s with stagedConstants := s.stagedConstants.push (!s.fastLoad) d }

def addProcedure (s : Store) (d : Procedure) : Store :=
  { s with stagedProcedures := s.stagedProcedures.push (!s.fastLoad) d }

def setFastLoad (on : Bool) (s : Store) : Store :=
  if s.fastLoad = on then s
  else
    { s with
      fastLoad := on
      stagedTypedefs := s.stagedTypedefs.setIndexed (!on)
      stagedDefinitions := s.stagedDefinitions.setIndexed (!on)
      stagedConstants := s.stagedConstants.setIndexed (!on)
      stagedProcedures := s.stagedProcedures.setIndexed (!on) }

def pending (s : Store) : Nat :=
  s.stagedTypedefs.entries.size + s.stagedDefinitions.entries.size + s.stagedConstants.entries.size +
    s.stagedProcedures.entries.size

def staged? (s : Store) (k : Key) : Option Nat :=
  match k.category with
  | .synonym => s.stagedTypedefs.count? k.name
  | .definedType => s.stagedDefinitions.count? k.name
  | .constant => s.stagedConstants.count? k.name
  | .procedure => s.stagedProcedures.count? k.name

section

variable {α : Type} [Declaration α]

open Declaration (name key category sameContent)

def stagedTwice (a : α) (times : Nat) : Diagnostic :=
  .report .duplicateDeclaration (some (key a))
    ((category α).text ++ " '" ++ name a ++ "' staged " ++ toString times ++ " times; none committed")

def conflicting (a : α) : Diagnostic :=
  .report .duplicateDeclaration (some (key a))
    ((category α).text ++ " '" ++ name a ++
      "' conflicts with the committed declaration; keeping the committed one")

def commitEntries (fast : Bool) (counts : Std.HashMap String Nat) (reported : List String)
    (t : Table α) (report : CommitReport) : List α → Table α × CommitReport
  | [] => (t, report)
  | a :: rest =>
    let times := counts.getD (name a) 1
    if 1 < times then
      if reported.contains (name a) then
        commitEntries fast counts reported t { report with skipped := report.skipped + 1 } rest
      else
        commitEntries fast counts (name a :: reported) t
          { report with
            skipped := report.skipped + 1
            diagnostics := report.diagnostics ++ [stagedTwice a times] } rest
    else
      match t.get? (name a) with
      | some b =>
        commitEntries fast counts reported t
          { report with
            skipped := report.skipped + 1
            diagnostics := report.diagnostics ++ (if sameContent b a then [] else [conflicting a]) } rest
      | none =>
        commitEntries fast counts reported (if fast then t.push a else t.insert a)
          { report with committed := report.committed + 1 } rest

def commitTable (fast : Bool) (t : Table α) (s : Staging α) : Table α × Staging α × CommitReport :=
  let (t, report) := commitEntries fast s.tally [] t .empty s.toList
  (if fast then t.reindex else t, s.clear, report)

end

def commit (s : Store) : Store × CommitReport :=
  if s.pending = 0 then (s, .empty)
  else
    let (typedefs, stagedTypedefs, r) := commitTable s.fastLoad s.typedefs s.stagedTypedefs
    let (definitions, stagedDefinitions, r') := commitTable s.fastLoad s.definitions s.stagedDefinitions
    let (constants, stagedConstants, r'') := commitTable s.fastLoad s.constants s.stagedConstants
    let (procedures, stagedProcedures, r''') := commitTable s.fastLoad s.procedures s.stagedProcedures
    (⟨typedefs, definitions, constants, procedures, stagedTypedefs, stagedDefinitions, stagedConstants,
      stagedProcedures, s.fastLoad⟩, ((r.append r').append r'').append r''')

def contains (s : Store) (k : Key) : Bool :=
  match k.category with
  | .synonym => s.typedefs.contains k.name
  | .definedType => s.definitions.contains k.name
  | .constant => s.constants.contains k.name
  | .procedure => s.procedures.contains k.name

def missing (s : Store) (ks : List Key) : List Key :=
  ks.filter fun k => !s.contains k

def node? (s : Store) (k : Key) : Option Node :=
  match k.category with
  | .synonym => (s.typedefs.get? k.name).map .synonym
  | .definedType => (s.definitions.get? k.name).map .definition
  | .constant | .procedure => none

def byName? (s : Store) (name : String) : Option Node :=
  match s.definitions.get? name with
  | some d => some (.definition d)
  | none => (s.typedefs.get? name).map .synonym

def follow? (s : Store) (r : Reference) : Option Node :=
  match r.target with
  | some (.declaration k) => s.node? k
  | _ => none

def size (s : Store) : Nat :=
  s.typedefs.size + s.definitions.size + s.constants.size + s.procedures.size

def removeTypedef (s : Store) (name : String) : Option Typedef × Store :=
  match s.typedefs.erase? name with
  | some (d, t) => (some d, { s with typedefs := t })
  | none => (none, s)

def removeDefinition (s : Store) (name : String) : Option Definition × Store :=
  match s.definitions.erase? name with
  | some (d, t) => (some d, { s with definitions := t })
  | none => (none, s)

def removeConstant (s : Store) (name : String) : Option Constant × Store :=
  match s.constants.erase? name with
  | some (d, t) => (some d, { s with constants := t })
  | none => (none, s)

def removeProcedure (s : Store) (name : String) : Option Procedure × Store :=
  match s.procedures.erase? name with
  | some (d, t) => (some d, { s with procedures := t })
  | none => (none, s)

def handles : List String :=
  ["HWND", "HMENU", "HACCEL", "HBRUSH", "HFONT", "HDC", "HICON"]

def baseTypedefs : List Typedef :=
  [⟨"SIZE_T", .builtin ⟨.int32, true⟩⟩, ⟨"DWORD64", .builtin ⟨.int64, true⟩⟩] ++
    handles.map fun name => ⟨name, .pointer .void⟩

def seeded : Store :=
  (baseTypedefs.foldl addTypedef empty).commit.1

end Store

end HeaderBinding
