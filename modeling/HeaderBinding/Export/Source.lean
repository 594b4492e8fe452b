namespace HeaderBinding

inductive ExportError where
  | moduleNotFound (module : String)
  | acquire (module reason : String)
  | parse (module reason : String)
  deriving DecidableEq, Repr

namespace ExportError

def name : ExportError → String
  | .moduleNotFound _ => "ModuleNotFound"
  | .acquire _ _ => "Acquire"
  | .parse _ _ => "Parse"

def module : ExportError → String
  | .moduleNotFound module | .acquire module _ | .parse module _ => module

def isSkippable : ExportError → Bool
  | .moduleNotFound _ => true
  | _ => false

def message : ExportError → String
  | .moduleNotFound module => "module '" ++ module ++ "' not found"
  | .acquire module reason => "failed to open module '" ++ module ++ "': " ++ reason
  | .parse module reason => "failed to read exports of '" ++ module ++ "': " ++ reason

end ExportError

structure ExportTable where
  module : String
  names : List String
  deriving DecidableEq, Repr

namespace ExportTable

def of (module : String) (names : List String) : ExportTable := ⟨module, names.eraseDups⟩

def exports (t : ExportTable) (name : String) : Bool :=
  t.names.contains name

def size (t : ExportTable) : Nat :=
  t.names.length

end ExportTable

structure ExportSource where
  modules : List (String × List String)
  failing : List String
  held : Nat
  acquired : Nat
  deriving DecidableEq, Repr

namespace ExportSource

def empty : ExportSource := ⟨[], [], 0, 0⟩

def withModule (s : ExportSource) (module : String) (names : List String) : ExportSource :=
  { s with modules := (module.toLower, names) :: s.modules }

def withFailure (s : ExportSource) (module : String) : ExportSource :=
  { s with failing := module.toLower :: s.failing }

def read (s : ExportSource) (module : String) : Except ExportError ExportTable :=
  if s.failing.contains module.toLower then .error (.acquire module "access denied")
  else
    match s.modules.lookup module.toLower with
    | some names => .ok (.of module names)
    | none => .error (.moduleNotFound module)

def acquire (s : ExportSource) (module : String) : Except ExportError ExportTable × ExportSource :=
  match s.read module with
  | .ok t => (.ok t, { s with held := s.held + 1, acquired := s.acquired + 1 })
  | .error e => (.error e, s)

def release (s : ExportSource) (tables : Nat) : ExportSource :=
  { s with held := s.held - tables }

end ExportSource

end HeaderBinding
