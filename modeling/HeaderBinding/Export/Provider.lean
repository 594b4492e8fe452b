import HeaderBinding.Export.Source

namespace HeaderBinding

class ExportProvider (σ : Type) where
  acquire : σ → String → Except ExportError ExportTable × σ
  release : σ → ExportTable → σ

instance : ExportProvider ExportSource where
  acquire := ExportSource.acquire
  release s _ := s.release 1

structure Request where
  module : String
  answer : Except ExportError ExportTable

structure Recorded (σ : Type) where
  source : σ
  requests : List Request
  released : List ExportTable

namespace Recorded

variable {σ : Type}

def start (source : σ) : Recorded σ := ⟨source, [], []⟩

def given (r : Recorded σ) : List ExportTable :=
  r.requests.filterMap (·.answer.toOption)

instance [ExportProvider σ] : ExportProvider (Recorded σ) where
  acquire r module :=
    let (answer, source) := ExportProvider.acquire r.source module
    (answer, { r with source := source, requests := r.requests ++ [⟨module, answer⟩] })
  release r table :=
    { r with source := ExportProvider.release r.source table, released := r.released ++ [table] }

end Recorded

end HeaderBinding
