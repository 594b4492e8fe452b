import HeaderBinding.Json.Parser
import HeaderBinding.Json.Printer

namespace HeaderBinding.Json

mutual
def isFinite : Json → Bool
  | .single x => x.isFinite
  | .double x => x.isFinite
  | .array items => isFiniteItems items
  | .object entries => isFiniteEntries entries
  | .null | .bool _ | .integer _ | .string _ | .fault _ => true
termination_by structural j => j

def isFiniteItems : List Json → Bool
  | [] => true
  | j :: rest => j.isFinite && isFiniteItems rest
termination_by structural items => items

def isFiniteEntries : List (String × Json) → Bool
  | [] => true
  | (_, j) :: rest => j.isFinite && isFiniteEntries rest
termination_by structural entries => entries
end

mutual
def ReadsAs : Json → Json → Prop
  | .null, .null => True
  | .bool a, .bool b => b = a
  | .integer m, .integer n => n = m
  | .string s, .string t => t = s
  | .single x, .double y => x.isFinite = true ∧ Numeral.narrow y = x
  | .double x, .double y => x.isFinite = true ∧ y = x
  | .single x, .null => x.isFinite = false
  | .double x, .null => x.isFinite = false
  | .array items, .array others => AllReadAs items others
  | .object entries, .object others => EntriesReadAs entries others
  | _, _ => False
termination_by structural j => j

def AllReadAs : List Json → List Json → Prop
  | [], [] => True
  | j :: rest, k :: others => j.ReadsAs k ∧ AllReadAs rest others
  | _, _ => False
termination_by structural items => items

def EntriesReadAs : List (String × Json) → List (String × Json) → Prop
  | [], [] => True
  | (key, j) :: rest, (key', k) :: others => key' = key ∧ j.ReadsAs k ∧ EntriesReadAs rest others
  | _, _ => False
termination_by structural entries => entries
end

@[simp] theorem readsAs_bool {j : Json} {b : Bool} : (bool b).ReadsAs j ↔ j = .bool b := by
  cases j <;> simp [ReadsAs]

@[simp] theorem readsAs_integer {j : Json} {n : Int} : (integer n).ReadsAs j ↔ j = .integer n := by
  cases j <;> simp [ReadsAs]

@[simp] theorem readsAs_string {j : Json} {s : String} : (string s).ReadsAs j ↔ j = .string s := by
  cases j <;> simp [ReadsAs]

mutual
def IsLegible : Json → Prop
  | .integer n => -(1 <<< 63) ≤ n ∧ n < UInt64.size
  | .single x => x.isFinite = true → ∃ y, Numeral.narrow y = x ∧ scalar? (singleText x).toList = some (.double y, [])
  | .double x => x.isFinite = true → scalar? (doubleText x).toList = some (.double x, [])
  | .array items => AllLegible items
  | .object entries => EntriesLegible entries
  | .null | .bool _ | .string _ => True
  | .fault _ => False
termination_by structural j => j

def AllLegible : List Json → Prop
  | [] => True
  | j :: rest => j.IsLegible ∧ AllLegible rest
termination_by structural items => items

def EntriesLegible : List (String × Json) → Prop
  | [] => True
  | (_, j) :: rest => j.IsLegible ∧ EntriesLegible rest
termination_by structural entries => entries
end

def ReadsBack (j : Json) : Prop :=
  ∃ k : Json, j.ReadsAs k ∧ parse? (j.pretty 0) = some k.sorted

end HeaderBinding.Json
