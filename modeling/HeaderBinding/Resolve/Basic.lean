import HeaderBinding.Resolve.Binding
import HeaderBinding.Resolve.Linking
import HeaderBinding.Resolve.Valuation

namespace HeaderBinding

structure ResolveOptions where
  bindsProcedures : Bool
  maxPasses : Option Nat
  deriving DecidableEq, Repr

def ResolveOptions.standard : ResolveOptions := ⟨true, none⟩

structure ResolveReport where
  linked : Nat
  unresolvedReferences : Nat
  evaluated : Nat
  unresolvedValues : Nat
  bound : Nat
  diagnostics : Diagnostics
  exportError : Option ExportError

namespace ResolveReport

def changed (r : ResolveReport) : Nat :=
  r.linked + r.evaluated + r.bound

def isUsable (r : ResolveReport) : Bool :=
  !r.diagnostics.hasErrors

def isSuccess (r : ResolveReport) : Bool :=
  !r.diagnostics.hasErrors && !r.diagnostics.hasWarnings && r.exportError.isNone

def bindWith (r : ResolveReport) (b : BindReport) : ResolveReport :=
  { r with bound := b.bound, diagnostics := r.diagnostics ++ b.diagnostics, exportError := b.error }

end ResolveReport

namespace Store

def resolve (options : ResolveOptions) (s : Store) : Store × ResolveReport :=
  let (s, links) := s.link
  let (s, values) := s.valuate options.maxPasses
  (s, {
    linked := links.linked
    unresolvedReferences := links.unresolved
    evaluated := values.evaluated
    unresolvedValues := values.unresolved
    bound := 0
    diagnostics := links.diagnostics ++ values.diagnostics
    exportError := none })

variable {σ : Type} [ExportProvider σ]

def resolveWithSearch (options : ResolveOptions) (s : Store) (x : Inquiry σ) :
    Store × Inquiry σ × ResolveReport :=
  let (s, report) := s.resolve options
  if options.bindsProcedures then
    let (s, x, b) := s.bind x
    (s, x, report.bindWith b)
  else (s, x, report)

def resolveWithSource (options : ResolveOptions) (s : Store) (source : σ) (modules : ModuleList) :
    Store × σ × ResolveReport :=
  let (s, report) := s.resolve options
  if options.bindsProcedures then
    let (s, x, b) := s.bind (.start source modules)
    (s, x.close, report.bindWith b)
  else (s, source, report)

end Store

end HeaderBinding
