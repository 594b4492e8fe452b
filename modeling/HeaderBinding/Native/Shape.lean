import HeaderBinding.Native.Walk

namespace HeaderBinding

namespace NativeType

def byName (name : String) (other : NativeType) : NativeType :=
  if name.isEmpty then other else .named (.unlinked name .empty)

mutual
def shape : NativeType → NativeType
  | .builtin b => .builtin b
  | .pointer pointee => .pointer pointee.shape
  | .array element rank length => .array element.shape rank length
  | .synonym name target => byName name (.synonym name target.shape)
  | .named r => .named r.unlink
  | .record kind ⟨name, members⟩ => byName name (.record kind ⟨name, shapeMembers members⟩)
  | .enumeration e => byName e.name (.enumeration e)
  | .function ⟨name, returns, params, convention⟩ =>
    .function ⟨name, returns.shape, shapeParams params, convention⟩
termination_by structural t => t

def shapeMembers : List (Member NativeType) → List (Member NativeType)
  | [] => []
  | ⟨name, type⟩ :: rest => ⟨name, type.shape⟩ :: shapeMembers rest
termination_by structural members => members

def shapeParams : List (Parameter NativeType) → List (Parameter NativeType)
  | [] => []
  | ⟨name, type, direction⟩ :: rest => ⟨name, type.shape, direction⟩ :: shapeParams rest
termination_by structural params => params
end

theorem shapeMembers_eq_map (ms : List (Member NativeType)) :
    shapeMembers ms = ms.map fun m => { m with type := m.type.shape } := by
  induction ms with
  | nil => rfl
  | cons m rest ih => simp [shapeMembers, ih]

theorem shapeParams_eq_map (ps : List (Parameter NativeType)) :
    shapeParams ps = ps.map fun p => { p with type := p.type.shape } := by
  induction ps with
  | nil => rfl
  | cons p rest ih => simp [shapeParams, ih]

end NativeType

end HeaderBinding
