import HeaderBinding.Declaration.Basic
import Std.Data.HashMap

namespace HeaderBinding

structure Table (α : Type) where
  entries : Array α
  index : Std.HashMap String Nat

namespace Table

variable {α : Type} [Declaration α]

open Declaration (name)

def empty : Table α := ⟨#[], ∅⟩

def toList (t : Table α) : List α :=
  t.entries.toList

def size (t : Table α) : Nat :=
  t.entries.size

def get? (t : Table α) (n : String) : Option α :=
  match t.index[n]? with
  | some i =>
    match t.entries[i]? with
    | some a => if name a = n then some a else none
    | none => none
  | none => none

theorem mem_of_get?_eq_some {t : Table α} {n : String} {a : α} (h : t.get? n = some a) :
    a ∈ t.toList ∧ name a = n := by
  unfold get? at h
  split at h
  · split at h
    · rename_i i _ b hb
      split at h
      · rename_i hn
        cases h
        exact ⟨by simpa [toList] using Array.mem_of_getElem? hb, hn⟩
      · cases h
    · cases h
  · cases h

def contains (t : Table α) (n : String) : Bool :=
  t.index.contains n

def insert (t : Table α) (a : α) : Table α :=
  ⟨t.entries.push a, t.index.insert (name a) t.entries.size⟩

def push (t : Table α) (a : α) : Table α :=
  { t with entries := t.entries.push a }

def indexOf (entries : List α) : Std.HashMap String Nat :=
  (entries.zipIdx).foldl (fun index (a, i) => index.insert (name a) i) ∅

def reindex (t : Table α) : Table α :=
  { t with index := indexOf t.toList }

def erase? (t : Table α) (n : String) : Option (α × Table α) :=
  match t.index[n]? with
  | none => none
  | some i =>
    match t.entries[i]? with
    | none => none
    | some a =>
      some (a, ⟨t.entries.eraseIdxIfInBounds i,
        (t.index.erase n).map fun _ j => if i < j then j - 1 else j⟩)

def mapM {m : Type → Type} [Monad m] (f : α → m α) (t : Table α) : m (Table α) := do
  let entries ← t.toList.mapM f
  return { t with entries := entries.toArray }

def map (f : α → α) (t : Table α) : Table α :=
  { t with entries := t.entries.map f }

def update (t : Table α) (n : String) (f : α → α) : Table α :=
  match t.index[n]? with
  | some i => { t with entries := t.entries.modify i f }
  | none => t

end Table

end HeaderBinding
