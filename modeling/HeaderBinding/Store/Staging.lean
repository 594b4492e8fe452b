import HeaderBinding.Declaration.Basic
import Std.Data.HashMap

namespace HeaderBinding

structure Staging (α : Type) where
  entries : Array α
  counts : Std.HashMap String Nat
  indexed : Bool

namespace Staging

variable {α : Type} [Declaration α]

open Declaration (name)

def empty : Staging α := ⟨#[], ∅, true⟩

def toList (s : Staging α) : List α :=
  s.entries.toList

def increment (counts : Std.HashMap String Nat) (n : String) : Std.HashMap String Nat :=
  counts.insert n (counts.getD n 0 + 1)

def countsOf (entries : List α) : Std.HashMap String Nat :=
  entries.foldl (fun counts a => increment counts (name a)) ∅

def push (counting : Bool) (s : Staging α) (a : α) : Staging α :=
  { s with
    entries := s.entries.push a
    counts := if counting then increment s.counts (name a) else s.counts }

def setIndexed (indexed : Bool) (s : Staging α) : Staging α :=
  { s with
    indexed := indexed
    counts :=
      if indexed && !s.indexed then countsOf s.toList
      else if indexed then s.counts
      else ∅ }

def tally (s : Staging α) : Std.HashMap String Nat :=
  if s.indexed then s.counts else countsOf s.toList

def count? (s : Staging α) (n : String) : Option Nat :=
  if s.indexed then some (s.counts.getD n 0) else none

def clear (s : Staging α) : Staging α :=
  { s with entries := #[], counts := ∅ }

end Staging

end HeaderBinding
