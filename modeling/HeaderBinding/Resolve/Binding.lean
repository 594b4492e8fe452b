import HeaderBinding.Export.Search
import HeaderBinding.Store.Basic

namespace HeaderBinding

structure BindReport where
  bound : Nat
  notFound : Nat
  diagnostics : Diagnostics
  error : Option ExportError

def BindReport.empty : BindReport := ⟨0, 0, [], none⟩

namespace Procedure

def isUnbound (p : Procedure) : Bool :=
  p.convention.isNone && p.module.isNone

def ambiguous (p : Procedure) (m : ExportMatch) : Diagnostic :=
  .report .ambiguousExport (some (Declaration.key p))
    ("exported by '" ++ m.module ++ "' and also by " ++
      ", ".intercalate (m.shadowed.map fun other => "'" ++ other ++ "'") ++
      "; using '" ++ m.module ++ "'")

def notExported (p : Procedure) : Diagnostic :=
  .report .exportNotFound (some (Declaration.key p)) "not exported by any configured module"

variable {σ : Type} [ExportProvider σ]

def bind (p : Procedure) : StateM (Inquiry σ × BindReport) Procedure := fun (x, report) =>
  if report.error.isSome || !p.isUnbound then (p, x, report)
  else
    match x.find p.name with
    | (.error e, x) => (p, x, { report with error := some e })
    | (.ok none, x) =>
      (p, x, {
        report with
        notFound := report.notFound + 1
        diagnostics := report.diagnostics ++ [p.notExported] })
    | (.ok (some m), x) =>
      ({ p with module := some m.module }, x, {
        report with
        bound := report.bound + 1
        diagnostics := report.diagnostics ++ if m.isAmbiguous then [p.ambiguous m] else [] })

end Procedure

def Store.bind {σ : Type} [ExportProvider σ] (s : Store) (x : Inquiry σ) : Store × Inquiry σ × BindReport :=
  let (procedures, x, report) := (s.procedures.mapM Procedure.bind).run (x, .empty)
  ({ s with procedures := procedures }, x, report)

end HeaderBinding
