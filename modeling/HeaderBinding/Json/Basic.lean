namespace HeaderBinding

inductive Json.Fault where
  | cut
  | refused
  | noKey (stops : Bool)

def Json.Fault.stops : Json.Fault → Bool
  | .cut => true
  | .refused => false
  | .noKey stops => stops

inductive Json where
  | null
  | bool (b : Bool)
  | integer (n : Int)
  | single (x : Float32)
  | double (x : Float)
  | string (s : String)
  | array (items : List Json)
  | object (entries : List (String × Json))
  | fault (f : Json.Fault)

namespace Json

instance : Inhabited Json := ⟨.null⟩

def get? : Json → String → Option Json
  | .object entries, key => entries.lookup key
  | _, _ => none

mutual
def depth : Json → Nat
  | .array items => depthItems items + 1
  | .object entries => depthEntries entries + 1
  | .null | .bool _ | .integer _ | .single _ | .double _ | .string _ | .fault _ => 0
termination_by structural j => j

def depthItems : List Json → Nat
  | [] => 0
  | j :: rest => max j.depth (depthItems rest)
termination_by structural items => items

def depthEntries : List (String × Json) → Nat
  | [] => 0
  | (_, j) :: rest => max j.depth (depthEntries rest)
termination_by structural entries => entries
end

mutual
def anyFault (p : Fault → Bool) : Json → Bool
  | .fault f => p f
  | .array items => anyFaultItems p items
  | .object entries => anyFaultEntries p entries
  | .null | .bool _ | .integer _ | .single _ | .double _ | .string _ => false
termination_by structural j => j

def anyFaultItems (p : Fault → Bool) : List Json → Bool
  | [] => false
  | j :: rest => j.anyFault p || anyFaultItems p rest
termination_by structural items => items

def anyFaultEntries (p : Fault → Bool) : List (String × Json) → Bool
  | [] => false
  | (_, j) :: rest => j.anyFault p || anyFaultEntries p rest
termination_by structural entries => entries
end

def isCut (j : Json) : Bool :=
  j.anyFault Fault.stops

def isSound (j : Json) : Bool :=
  !j.anyFault fun _ => true

def insertEntry (key : String) (value : Json) : List (String × Json) → List (String × Json)
  | [] => [(key, value)]
  | (k, v) :: rest =>
    if key < k then (key, value) :: (k, v) :: rest
    else if key = k then (key, value) :: rest
    else (k, v) :: insertEntry key value rest

mutual
def sorted : Json → Json
  | .array items => .array (sortedItems items)
  | .object entries => .object (sortedEntries [] entries)
  | .null => .null
  | .bool b => .bool b
  | .integer n => .integer n
  | .single x => .single x
  | .double x => .double x
  | .string s => .string s
  | .fault f => .fault f
termination_by structural j => j

def sortedItems : List Json → List Json
  | [] => []
  | j :: rest => j.sorted :: sortedItems rest
termination_by structural items => items

def sortedEntries (before : List (String × Json)) : List (String × Json) → List (String × Json)
  | [] => before
  | (key, j) :: rest => sortedEntries (insertEntry key j.sorted before) rest
termination_by structural entries => entries
end

end Json

end HeaderBinding
