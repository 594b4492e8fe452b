import HeaderBinding.Declaration.Basic
import HeaderBinding.Diagnostic
import HeaderBinding.Emission.Options
import HeaderBinding.Managed.Basic
import Std.Data.HashMap
import Std.Data.HashSet

namespace HeaderBinding

structure SkippedItem where
  subject : Key
  member : Option String
  reason : String
  deriving DecidableEq, Repr

abbrev Taken := Std.HashMap String NativeType

structure Draft where
  types : Array Managed.TypeDecl
  taken : Taken
  bounds : Std.HashSet String
  subject : Option Key
  diagnostics : Diagnostics
  skipped : List SkippedItem

abbrev Emit (α : Type) := StateT Draft Option α

namespace Draft

def empty : Draft := ⟨#[], ∅, ∅, none, [], []⟩

def offer (name : String) (n : Nat) : String :=
  if n ≤ 1 then name else name ++ "_" ++ toString n

def choose (taken : Taken) (name : String) (body : NativeType) (n : Nat) :
    Nat → Nat × Bool
  | 0 => (n, true)
  | tries + 1 =>
    match taken[offer name n]? with
    | none => (n, true)
    | some held => if held.same body then (n, false) else choose taken name body (n + 1) tries

def renamed (name given : String) : Diagnostic :=
  .report .renamedType (some (.definedType name))
    ("'" ++ name ++ "' already names a different type; emitted as '" ++ given ++ "'")

def claim (name : String) (body : NativeType) (d : Draft) : (String × Bool) × Draft :=
  let (n, free) := choose d.taken name body 1 (d.taken.size + 1)
  let given := offer name n
  if free then
    ((given, true), {
      d with
      taken := d.taken.insert given body
      diagnostics := d.diagnostics ++ if 1 < n then [renamed name given] else [] })
  else ((given, false), d)

def declare (t : Managed.TypeDecl) (d : Draft) : Draft :=
  { d with types := d.types.push t }

def skip (item : SkippedItem) (d : Draft) : Draft :=
  { d with skipped := d.skipped ++ [item] }

end Draft

end HeaderBinding
