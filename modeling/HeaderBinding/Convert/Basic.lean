import HeaderBinding.Convert.Config
import HeaderBinding.Convert.Input
import HeaderBinding.Emission.Basic

namespace HeaderBinding

structure ConversionStats where
  committed : Nat
  rejected : Nat
  linked : Nat
  unresolvedReferences : Nat
  evaluated : Nat
  unresolvedValues : Nat
  bound : Nat
  emittedTypes : Nat
  deriving DecidableEq, Repr

structure Conversion where
  bindings : Managed.Bindings
  diagnostics : Diagnostics
  skipped : List SkippedItem
  stats : ConversionStats
  exportError : Option ExportError

namespace Conversion

def isUsable (c : Conversion) : Bool :=
  !c.diagnostics.hasErrors

def isSuccess (c : Conversion) : Bool :=
  !c.diagnostics.hasErrors && c.exportError.isNone

def of (before : Diagnostics) (commit : CommitReport) (resolved : ResolveReport) (e : Emission) :
    Conversion where
  bindings := e.bindings
  diagnostics := before ++ commit.diagnostics ++ resolved.diagnostics ++ e.diagnostics
  skipped := e.skipped
  stats := {
    committed := commit.committed
    rejected := commit.skipped
    linked := resolved.linked
    unresolvedReferences := resolved.unresolvedReferences
    evaluated := resolved.evaluated
    unresolvedValues := resolved.unresolvedValues
    bound := resolved.bound
    emittedTypes := e.bindings.types.length }
  exportError := resolved.exportError

end Conversion

namespace Config

def exportSource (_ : Config) : ExportSource := .empty

def convertStore (c : Config) (s : Store) (source : ExportSource) :
    Store × ExportSource × Option Conversion :=
  let (s, commit) := s.commit
  let (s, source, resolved) := s.resolveWithSource c.resolution source c.modules
  (s, source, (s.emit? c.emission).map (.of [] commit resolved))

def convertOffline (c : Config) (s : Store) : Store × Option Conversion :=
  let (s, commit) := s.commit
  let (s, resolved) := s.resolve c.resolution
  (s, (s.emit? c.emission).map (.of [] commit resolved))

def newStore (c : Config) : Store :=
  if c.seedsTypedefs then .seeded else .empty

def convert (c : Config) (d : DeclarationSet) (source : ExportSource) :
    Store × ExportSource × Option Conversion :=
  let (s, commit) := (d.stage (c.newStore.setFastLoad c.fastLoad)).commit
  let s := s.setFastLoad false
  let (s, source, resolved) := s.resolveWithSource c.resolution source c.modules
  (s, source, (s.emit? c.emission).map (.of d.diagnostics commit resolved))

end Config

end HeaderBinding
