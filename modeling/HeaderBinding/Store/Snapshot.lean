import HeaderBinding.Declaration.Data
import HeaderBinding.Json.Printer
import HeaderBinding.Store.Basic

namespace HeaderBinding

namespace NativeType

def heldOr (held : Bool) (name : String) (other : NativeType) : NativeType :=
  if held && !name.isEmpty then .named (.unlinked name .empty) else other

mutual
def hoist (s : Store) : NativeType → NativeType
  | .builtin b => .builtin b
  | .pointer pointee => .pointer (pointee.hoist s)
  | .array element rank length => .array (element.hoist s) rank length
  | .synonym name target => heldOr (s.contains (.synonym name)) name (.synonym name (target.hoist s))
  | .named r => .named r
  | .record kind ⟨name, members⟩ =>
    heldOr (s.contains (.definedType name)) name (.record kind ⟨name, hoistMembers s members⟩)
  | .enumeration e => heldOr (s.contains (.definedType e.name)) e.name (.enumeration e)
  | .function ⟨name, returns, params, convention⟩ =>
    .function ⟨name, returns.hoist s, hoistParams s params, convention⟩
termination_by structural t => t

def hoistMembers (s : Store) : List (Member NativeType) → List (Member NativeType)
  | [] => []
  | ⟨name, type⟩ :: rest => ⟨name, type.hoist s⟩ :: hoistMembers s rest
termination_by structural members => members

def hoistParams (s : Store) : List (Parameter NativeType) → List (Parameter NativeType)
  | [] => []
  | ⟨name, type, direction⟩ :: rest => ⟨name, type.hoist s, direction⟩ :: hoistParams s rest
termination_by structural params => params
end

end NativeType

namespace Store

def snapshotVersion : Nat := 1

def entryJson {α : Type} [DeclarationData α] (s : Store) (a : α) : Json :=
  DeclarationData.toJson (Declaration.mapRoots (NativeType.hoist s) a)

def snapshot (s : Store) : Json :=
  .object [
    ("version", .integer snapshotVersion),
    ("typedefs", .array (s.typedefs.toList.map (entryJson s))),
    ("defined_types", .array (s.definitions.toList.map (entryJson s))),
    ("constants", .array (s.constants.toList.map (entryJson s))),
    ("procedures", .array (s.procedures.toList.map (entryJson s)))]

def serialize (s : Store) : String :=
  s.snapshot.pretty 0

end Store

inductive SnapshotError where
  | notJson
  | notObject
  | noVersion
  | unsupportedVersion (found : Nat)
  | notList (name : String)
  deriving DecidableEq, Repr

namespace SnapshotError

def message? : SnapshotError → Option String
  | .notJson => none
  | .notObject => some "malformed snapshot: snapshot root is not an object"
  | .noVersion => some "malformed snapshot: missing format version"
  | .unsupportedVersion found =>
    some ("unsupported snapshot version " ++ toString found ++ " (expected " ++
      toString Store.snapshotVersion ++ ")")
  | .notList name => some ("malformed snapshot: section '" ++ name ++ "' is not a list")

end SnapshotError

inductive EntryFault where
  | undecodable (e : DecodeError)
  | unnamed
  | emptyReference

def EntryFault.message : EntryFault → String
  | .undecodable e => e.message?.getD ""
  | .unnamed => "missing name"
  | .emptyReference => "reference with an empty name"

namespace Snapshot

def sectionOf (entries : List (String × Json)) (name : String) : Except SnapshotError (List Json) :=
  match entries.lookup name with
  | none => .ok []
  | some (.array items) => .ok items
  | some _ => .error (.notList name)

structure Parts where
  typedefs : List Json
  definitions : List Json
  constants : List Json
  procedures : List Json

def versionOf? (entries : List (String × Json)) : Option Nat :=
  match entries.lookup "version" with
  | some (.integer n) => if 0 ≤ n ∧ n < UInt64.size then some n.toNat else none
  | _ => none

def parts : Json → Except SnapshotError Parts
  | .object entries => do
    match versionOf? entries with
    | none => throw .noVersion
    | some version =>
      if version ≠ Store.snapshotVersion then
        throw (.unsupportedVersion (min version (UInt32.size - 1)))
      return {
        typedefs := ← sectionOf entries "typedefs"
        definitions := ← sectionOf entries "defined_types"
        constants := ← sectionOf entries "constants"
        procedures := ← sectionOf entries "procedures" }
  | _ => throw .notObject

section

variable (α : Type) [DeclarationData α]

def readEntry (j : Json) : Except EntryFault α :=
  match DeclarationData.ofJson .tree j with
  | .error e => .error (.undecodable e)
  | .ok (a : α) =>
    if (Declaration.name a).isEmpty then .error .unnamed
    else if (Declaration.references a).any (·.name.isEmpty) then .error .emptyReference
    else .ok a

def subjectOf? (j : Json) : Option Key :=
  match j.get? "name" with
  | some (.string name) => if name.isEmpty then none else some ⟨Declaration.category α, name⟩
  | _ => none

def malformed (index : Nat) (j : Json) (fault : EntryFault) : Diagnostic :=
  .report .malformedEntry (subjectOf? α j)
    ((Declaration.category α).text ++ " entry #" ++ toString index ++ " skipped: " ++ fault.message)

def readEntries (index : Nat) : List Json → List α × Diagnostics
  | [] => ([], [])
  | j :: rest =>
    let (as, ds) := readEntries (index + 1) rest
    match readEntry α j with
    | .ok a => (a :: as, ds)
    | .error fault => (as, malformed α index j fault :: ds)

end

end Snapshot

namespace Store

open Snapshot (readEntries)

def stageSection {α : Type} [DeclarationData α] (add : Store → α → Store) (items : List Json) :
    StateM Store Diagnostics := do
  let (entries, ds) := readEntries α 0 items
  entries.forM fun a => modify (add · a)
  return ds

def stageParts (p : Snapshot.Parts) : StateM Store Diagnostics := do
  let ds ← stageSection addTypedef p.typedefs
  let ds' ← stageSection addDefinition p.definitions
  let ds'' ← stageSection addConstant p.constants
  let ds''' ← stageSection addProcedure p.procedures
  return ds ++ ds' ++ ds'' ++ ds'''

def loadParts (p : Snapshot.Parts) : StateM Store Diagnostics := do
  let fast := (← get).fastLoad
  modify (setFastLoad true)
  let ds ← stageParts p
  let report ← modifyGet fun s => (s.commit.2, s.commit.1)
  modify (setFastLoad fast)
  return ds ++ report.diagnostics

def loadInPlace (text : String) : ExceptT SnapshotError (StateM Store) Diagnostics := do
  let some j := Json.parse? text | throw .notJson
  let p ← ofExcept (Snapshot.parts j)
  loadParts p

def load (s : Store) (text : String) : Except SnapshotError (Store × Diagnostics) :=
  match (loadInPlace text).run.run s with
  | (.ok ds, t) => .ok (t, ds)
  | (.error e, _) => .error e

def deserialize (text : String) : Except SnapshotError (Store × Diagnostics) :=
  empty.load text

end Store

end HeaderBinding
