import HeaderBinding.Export.ModuleList
import HeaderBinding.Export.Provider

namespace HeaderBinding

structure ExportMatch where
  module : String
  shadowed : List String
  deriving DecidableEq, Repr

namespace ExportMatch

def isAmbiguous (m : ExportMatch) : Bool :=
  !m.shadowed.isEmpty

def found (module : String) : Option ExportMatch → ExportMatch
  | none => ⟨module, []⟩
  | some first => { first with shadowed := first.shadowed ++ [module] }

end ExportMatch

abbrev ExportResult := Except ExportError (Option ExportMatch)

inductive ModuleState where
  | unopened
  | opened (table : ExportTable)
  | absent
  | unreadable (error : ExportError)
  deriving DecidableEq, Repr

def ModuleState.of : Except ExportError ExportTable → ModuleState
  | .ok table => .opened table
  | .error e => if e.isSkippable then .absent else .unreadable e

structure Candidate where
  module : String
  state : ModuleState
  deriving DecidableEq, Repr

variable {σ : Type}

namespace Candidate

def ensureOpened [ExportProvider σ] (c : Candidate) (source : σ) : Candidate × σ :=
  match c.state with
  | .unopened =>
    let (result, source) := ExportProvider.acquire source c.module
    ({ c with state := .of result }, source)
  | _ => (c, source)

def table? (c : Candidate) : Option ExportTable :=
  match c.state with
  | .opened table => some table
  | _ => none

end Candidate

structure Inquiry (σ : Type) where
  source : σ
  candidates : List Candidate

abbrev ExportSearch := Inquiry ExportSource

namespace Inquiry

def start (source : σ) (modules : ModuleList) : Inquiry σ :=
  ⟨source, modules.names.map fun module => ⟨module, .unopened⟩⟩

def tables (x : Inquiry σ) : List ExportTable :=
  x.candidates.filterMap Candidate.table?

def missing (x : Inquiry σ) : List String :=
  (x.candidates.filter (·.state = .absent)).map (·.module)

variable [ExportProvider σ]

def lookup (name : String) (source : σ) (first : Option ExportMatch) :
    List Candidate → ExportResult × σ × List Candidate
  | [] => (.ok first, source, [])
  | c :: rest =>
    let (c, source) := c.ensureOpened source
    let further (first : Option ExportMatch) :=
      let (result, source, rest) := lookup name source first rest
      (result, source, c :: rest)
    match c.state with
    | .opened table => further (if table.exports name then some (.found table.module first) else first)
    | .unreadable e => if first.isSome then further first else (.error e, source, c :: rest)
    | .unopened | .absent => further first

def find (x : Inquiry σ) (name : String) : ExportResult × Inquiry σ :=
  let (result, source, candidates) := lookup name x.source none x.candidates
  (result, ⟨source, candidates⟩)

def findAll (names : List String) : StateM (Inquiry σ) (List ExportResult) :=
  names.mapM fun name x => x.find name

def close (x : Inquiry σ) : σ :=
  x.tables.foldl ExportProvider.release x.source

end Inquiry

end HeaderBinding
