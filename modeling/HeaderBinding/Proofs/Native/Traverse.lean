import HeaderBinding.Proofs.Native.Rewrite

namespace HeaderBinding.NativeType

variable {m : Type → Type} [Monad m] [LawfulMonad m] (f : Enumeration → m Enumeration)

@[simp] theorem enumerations_builtin (b : Builtin) : (builtin b).enumerations = [] :=
  enumerations_eq _

@[simp] theorem enumerations_named (r : Reference) : (named r).enumerations = [] :=
  enumerations_eq _

@[simp] theorem enumerations_enumeration (e : Enumeration) : (enumeration e).enumerations = [e] :=
  enumerations_eq _

@[simp] theorem enumerations_pointer (pointee : NativeType) :
    (pointer pointee).enumerations = pointee.enumerations := by
  simp [enumerations_eq (.pointer pointee), children, enumeration?]

@[simp] theorem enumerations_array (element : NativeType) (rank : UInt32) (length : Option ArrayLength) :
    (array element rank length).enumerations = element.enumerations := by
  simp [enumerations_eq (.array element rank length), children, enumeration?]

@[simp] theorem enumerations_synonym (name : String) (target : NativeType) :
    (synonym name target).enumerations = target.enumerations := by
  simp [enumerations_eq (.synonym name target), children, enumeration?]

@[simp] theorem enumerations_record (kind : RecordKind) (body : Record NativeType) :
    (record kind body).enumerations = body.members.flatMap (·.type.enumerations) := by
  simp [enumerations_eq (.record kind body), children, enumeration?, List.flatMap_map]

@[simp] theorem enumerations_function (s : Signature NativeType) :
    (function s).enumerations = s.returns.enumerations ++ s.params.flatMap (·.type.enumerations) := by
  simp [enumerations_eq (.function s), children, enumeration?, List.flatMap_map]

mutual
theorem enumerations_mapEnumsM : ∀ t : NativeType,
    enumerations <$> t.mapEnumsM f = t.enumerations.mapM f
  | .builtin b => by simp [mapEnumsM, traverse]
  | .named r => by simp [mapEnumsM, traverse]
  | .pointer pointee => by
    rw [enumerations_pointer, ← enumerations_mapEnumsM pointee]
    simp [mapEnumsM, traverse]
  | .array element rank length => by
    rw [enumerations_array, ← enumerations_mapEnumsM element]
    simp [mapEnumsM, traverse]
  | .synonym name target => by
    rw [enumerations_synonym, ← enumerations_mapEnumsM target]
    simp [mapEnumsM, traverse]
  | .record kind ⟨name, members⟩ => by
    rw [enumerations_record, ← enumerations_traverseMembers members]
    simp [mapEnumsM, traverse]
  | .enumeration e => by simp [mapEnumsM, traverse]
  | .function ⟨name, returns, params, convention⟩ => by
    rw [enumerations_function, List.mapM_append, ← enumerations_mapEnumsM returns,
      ← enumerations_traverseParams params]
    simp [mapEnumsM, traverse]
termination_by structural t => t

theorem enumerations_traverseMembers : ∀ ms : List (Member NativeType),
    List.flatMap (·.type.enumerations) <$> traverseMembers (fun _ => pure ()) pure f ms =
      (ms.flatMap (·.type.enumerations)).mapM f
  | [] => by simp [traverseMembers]
  | ⟨name, type⟩ :: rest => by
    rw [List.flatMap_cons, List.mapM_append, ← enumerations_mapEnumsM type,
      ← enumerations_traverseMembers rest]
    simp [mapEnumsM, traverseMembers]
termination_by structural ms => ms

theorem enumerations_traverseParams : ∀ ps : List (Parameter NativeType),
    List.flatMap (·.type.enumerations) <$> traverseParams (fun _ => pure ()) pure f ps =
      (ps.flatMap (·.type.enumerations)).mapM f
  | [] => by simp [traverseParams]
  | ⟨name, type, direction⟩ :: rest => by
    rw [List.flatMap_cons, List.mapM_append, ← enumerations_mapEnumsM type,
      ← enumerations_traverseParams rest]
    simp [mapEnumsM, traverseParams]
termination_by structural ps => ps
end

end HeaderBinding.NativeType
