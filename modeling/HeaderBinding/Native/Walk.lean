import HeaderBinding.Native.Basic

namespace HeaderBinding

namespace NativeType

def children : NativeType → List NativeType
  | .pointer pointee => [pointee]
  | .array element _ _ => [element]
  | .synonym _ target => [target]
  | .record _ body => body.members.map (·.type)
  | .function s => s.returns :: s.params.map (·.type)
  | .builtin _ | .named _ | .enumeration _ => []

theorem sizeOf_lt_of_mem_children {t c : NativeType} (h : c ∈ t.children) : sizeOf c < sizeOf t := by
  cases t with
  | builtin b => simp [children] at h
  | named r => simp [children] at h
  | enumeration e => simp [children] at h
  | pointer pointee =>
    rw [List.mem_singleton.1 h, pointer.sizeOf_spec]; omega
  | array element rank length =>
    rw [List.mem_singleton.1 h, array.sizeOf_spec]; omega
  | synonym name target =>
    rw [List.mem_singleton.1 h, synonym.sizeOf_spec]; omega
  | record kind body =>
    obtain ⟨name, members⟩ := body
    simp only [children, List.mem_map] at h
    obtain ⟨⟨n, t⟩, hm, rfl⟩ := h
    have := List.sizeOf_lt_of_mem hm
    simp at *; omega
  | function s =>
    obtain ⟨name, returns, params, convention⟩ := s
    simp only [children, List.mem_cons, List.mem_map] at h
    rcases h with rfl | ⟨⟨n, t, d⟩, hm, rfl⟩
    · simp; omega
    · have := List.sizeOf_lt_of_mem hm
      simp at *; omega

def visit (t : NativeType) : List NativeType :=
  t :: t.children.attach.flatMap fun ⟨c, _⟩ => c.visit
termination_by sizeOf t
decreasing_by exact sizeOf_lt_of_mem_children ‹_›

theorem visit_eq (t : NativeType) : t.visit = t :: t.children.flatMap visit := by
  rw [visit]; simp

def reference? : NativeType → Option Reference
  | .named r => some r
  | _ => none

def references (t : NativeType) : List Reference :=
  t.reference?.toList ++ t.children.attach.flatMap fun ⟨c, _⟩ => c.references
termination_by sizeOf t
decreasing_by exact sizeOf_lt_of_mem_children ‹_›

theorem references_eq (t : NativeType) :
    t.references = t.reference?.toList ++ t.children.flatMap references := by
  rw [references]; simp

def enumeration? : NativeType → Option Enumeration
  | .enumeration e => some e
  | _ => none

def enumerations (t : NativeType) : List Enumeration :=
  t.visit.filterMap enumeration?

def mapChildren (f : NativeType → NativeType) : NativeType → NativeType
  | .pointer pointee => .pointer (f pointee)
  | .array element rank length => .array (f element) rank length
  | .synonym name target => .synonym name (f target)
  | .record kind body =>
    .record kind ⟨body.name, body.members.map fun m => { m with type := f m.type }⟩
  | .function s =>
    .function { s with returns := f s.returns, params := s.params.map fun p => { p with type := f p.type } }
  | .builtin b => .builtin b
  | .named r => .named r
  | .enumeration e => .enumeration e

variable {m : Type → Type} [Monad m]

mutual
def traverse (node : NativeType → m Unit) (reference : Reference → m Reference)
    (enumeration : Enumeration → m Enumeration) : NativeType → m NativeType
  | .builtin b => do
    node (.builtin b)
    pure (.builtin b)
  | .pointer pointee => do
    node (.pointer pointee)
    return .pointer (← pointee.traverse node reference enumeration)
  | .array element rank length => do
    node (.array element rank length)
    return .array (← element.traverse node reference enumeration) rank length
  | .synonym name target => do
    node (.synonym name target)
    return .synonym name (← target.traverse node reference enumeration)
  | .named r => do
    node (.named r)
    return .named (← reference r)
  | .record kind ⟨name, members⟩ => do
    node (.record kind ⟨name, members⟩)
    return .record kind ⟨name, ← traverseMembers node reference enumeration members⟩
  | .enumeration e => do
    node (.enumeration e)
    return .enumeration (← enumeration e)
  | .function ⟨name, returns, params, convention⟩ => do
    node (.function ⟨name, returns, params, convention⟩)
    let returns ← returns.traverse node reference enumeration
    return .function ⟨name, returns, ← traverseParams node reference enumeration params, convention⟩
termination_by structural t => t

def traverseMembers (node : NativeType → m Unit) (reference : Reference → m Reference)
    (enumeration : Enumeration → m Enumeration) :
    List (Member NativeType) → m (List (Member NativeType))
  | [] => pure []
  | ⟨name, type⟩ :: rest => do
    let type ← type.traverse node reference enumeration
    return ⟨name, type⟩ :: (← traverseMembers node reference enumeration rest)
termination_by structural members => members

def traverseParams (node : NativeType → m Unit) (reference : Reference → m Reference)
    (enumeration : Enumeration → m Enumeration) :
    List (Parameter NativeType) → m (List (Parameter NativeType))
  | [] => pure []
  | ⟨name, type, direction⟩ :: rest => do
    let type ← type.traverse node reference enumeration
    return ⟨name, type, direction⟩ :: (← traverseParams node reference enumeration rest)
termination_by structural params => params
end

def mapReferencesM (f : Reference → m Reference) (t : NativeType) : m NativeType :=
  t.traverse (fun _ => pure ()) f pure

def mapEnumsM (f : Enumeration → m Enumeration) (t : NativeType) : m NativeType :=
  t.traverse (fun _ => pure ()) pure f

def mapReferences (f : Reference → Reference) (t : NativeType) : NativeType :=
  t.mapReferencesM (m := Id) f

end NativeType

end HeaderBinding
