import HeaderBinding.Json.ReadBack

namespace HeaderBinding.Json

mutual
def inTree : Json → Json
  | .single x => if x.isFinite then .double (Numeral.widen x) else .null
  | .double x => if x.isFinite then .double x else .null
  | .array items => .array (inTreeItems items)
  | .object entries => .object (inTreeEntries entries)
  | .null => .null
  | .bool b => .bool b
  | .integer n => .integer n
  | .string s => .string s
  | .fault f => .fault f
termination_by structural j => j

def inTreeItems : List Json → List Json
  | [] => []
  | j :: rest => j.inTree :: inTreeItems rest
termination_by structural items => items

def inTreeEntries : List (String × Json) → List (String × Json)
  | [] => []
  | (key, j) :: rest => (key, j.inTree) :: inTreeEntries rest
termination_by structural entries => entries
end

def tree (j : Json) : Json :=
  j.inTree.sorted

end HeaderBinding.Json
