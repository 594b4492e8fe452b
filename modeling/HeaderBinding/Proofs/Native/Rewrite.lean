import HeaderBinding.Native.Walk
import Mathlib.Data.List.Basic

namespace HeaderBinding.NativeType

theorem children_induction {P : NativeType → Prop}
    (h : ∀ t : NativeType, (∀ c ∈ t.children, P c) → P t) (t : NativeType) : P t :=
  h t fun c _ => children_induction h c
termination_by sizeOf t
decreasing_by exact sizeOf_lt_of_mem_children ‹_›

theorem mem_visit_self (t : NativeType) : t ∈ t.visit := by
  rw [visit_eq]
  exact List.mem_cons_self ..

theorem mem_visit_of_child {t c x : NativeType} (hc : c ∈ t.children) (hx : x ∈ c.visit) : x ∈ t.visit := by
  rw [visit_eq]
  exact List.mem_cons_of_mem t (List.mem_flatMap.mpr ⟨c, hc, hx⟩)

theorem mem_references_of_child {t c : NativeType} {r : Reference} (hc : c ∈ t.children) (hr : r ∈ c.references) :
    r ∈ t.references := by
  rw [references_eq]
  exact List.mem_append_right _ (List.mem_flatMap.mpr ⟨c, hc, hr⟩)

theorem children_mapChildren (f : NativeType → NativeType) (t : NativeType) :
    (t.mapChildren f).children = t.children.map f := by
  cases t with
  | record kind body => simp [mapChildren, children]
  | function s => simp [mapChildren, children]
  | _ => rfl

theorem mapChildren_id (t : NativeType) : t.mapChildren id = t := by
  cases t with
  | record kind body => simp [mapChildren]
  | function s => simp [mapChildren]
  | _ => rfl

theorem enumerations_eq (t : NativeType) :
    t.enumerations = t.enumeration?.toList ++ t.children.flatMap enumerations := by
  unfold enumerations
  rw [visit_eq, List.filterMap_cons, List.filterMap_flatMap]
  cases t.enumeration? <;> rfl

@[simp] theorem references_builtin (b : Builtin) : (builtin b).references = [] :=
  references_eq _

@[simp] theorem references_named (r : Reference) : (named r).references = [r] :=
  references_eq _

@[simp] theorem references_enumeration (e : Enumeration) : (enumeration e).references = [] :=
  references_eq _

@[simp] theorem references_pointer (pointee : NativeType) :
    (pointer pointee).references = pointee.references := by
  simp [references_eq (.pointer pointee), children, reference?]

@[simp] theorem references_array (element : NativeType) (rank : UInt32)
    (length : Option ArrayLength) : (array element rank length).references = element.references := by
  simp [references_eq (.array element rank length), children, reference?]

@[simp] theorem references_synonym (name : String) (target : NativeType) :
    (synonym name target).references = target.references := by
  simp [references_eq (.synonym name target), children, reference?]

@[simp] theorem references_record (kind : RecordKind) (body : Record NativeType) :
    (record kind body).references = body.members.flatMap (·.type.references) := by
  simp [references_eq (.record kind body), children, reference?, List.flatMap_map]

@[simp] theorem references_function (s : Signature NativeType) :
    (function s).references = s.returns.references ++ s.params.flatMap (·.type.references) := by
  simp [references_eq (.function s), children, reference?, List.flatMap_map]

def rewrite (g : Reference → Reference) (e : Enumeration → Enumeration) (t : NativeType) : NativeType :=
  t.traverse (m := Id) (fun _ => pure ()) g e

variable (g g' : Reference → Reference) (e e' : Enumeration → Enumeration)

@[simp] theorem rewrite_builtin (b : Builtin) : (builtin b).rewrite g e = builtin b := rfl

@[simp] theorem rewrite_named (r : Reference) : (named r).rewrite g e = named (g r) := rfl

@[simp] theorem rewrite_pointer (pointee : NativeType) :
    (pointer pointee).rewrite g e = pointer (pointee.rewrite g e) := rfl

@[simp] theorem rewrite_array (element : NativeType) (rank : UInt32) (length : Option ArrayLength) :
    (array element rank length).rewrite g e = array (element.rewrite g e) rank length := rfl

@[simp] theorem rewrite_synonym (name : String) (target : NativeType) :
    (synonym name target).rewrite g e = synonym name (target.rewrite g e) := rfl

@[simp] theorem rewrite_enumeration (x : Enumeration) :
    (enumeration x).rewrite g e = enumeration (e x) := rfl

theorem traverseMembers_eq (ms : List (Member NativeType)) :
    traverseMembers (m := Id) (fun _ => pure ()) g e ms =
      ms.map fun x => { x with type := x.type.rewrite g e } := by
  induction ms with
  | nil => rfl
  | cons x rest ih => exact congrArg (List.cons { x with type := x.type.rewrite g e }) ih

theorem traverseParams_eq (ps : List (Parameter NativeType)) :
    traverseParams (m := Id) (fun _ => pure ()) g e ps =
      ps.map fun x => { x with type := x.type.rewrite g e } := by
  induction ps with
  | nil => rfl
  | cons x rest ih => exact congrArg (List.cons { x with type := x.type.rewrite g e }) ih

@[simp] theorem rewrite_record (kind : RecordKind) (body : Record NativeType) :
    (record kind body).rewrite g e =
      record kind ⟨body.name, body.members.map fun x => { x with type := x.type.rewrite g e }⟩ :=
  congrArg (fun ms => record kind ⟨body.name, ms⟩) (traverseMembers_eq g e body.members)

@[simp] theorem rewrite_function (s : Signature NativeType) :
    (function s).rewrite g e =
      function { s with
        returns := s.returns.rewrite g e
        params := s.params.map fun x => { x with type := x.type.rewrite g e } } :=
  congrArg (fun ps => function ⟨s.name, s.returns.rewrite g e, ps, s.convention⟩)
    (traverseParams_eq g e s.params)

theorem children_rewrite (t : NativeType) :
    (t.rewrite g e).children = t.children.map (rewrite g e) := by
  cases t with
  | record kind body => simp [children]
  | function s => simp [children]
  | _ => rfl

theorem enumeration?_rewrite (t : NativeType) :
    (t.rewrite g e).enumeration? = t.enumeration?.map e := by
  cases t with
  | record kind body => simp [enumeration?]
  | function s => simp [enumeration?]
  | _ => rfl

theorem reference?_rewrite (t : NativeType) : (t.rewrite g e).reference? = t.reference?.map g := by
  cases t with
  | record kind body => simp [reference?]
  | function s => simp [reference?]
  | _ => rfl

theorem enumerations_rewrite (t : NativeType) :
    (t.rewrite g e).enumerations = t.enumerations.map e := by
  induction t using children_induction with
  | h t ih =>
    rw [enumerations_eq, enumerations_eq t, children_rewrite, enumeration?_rewrite, List.flatMap_map,
      List.flatMap_congr ih, List.map_append, List.map_flatMap]
    cases t.enumeration? <;> rfl

theorem references_rewrite (t : NativeType) : (t.rewrite g e).references = t.references.map g := by
  induction t using children_induction with
  | h t ih =>
    rw [references_eq, references_eq t, children_rewrite, reference?_rewrite, List.flatMap_map,
      List.flatMap_congr ih, List.map_append, List.map_flatMap]
    cases t.reference? <;> rfl

theorem rewrite_rewrite (t : NativeType) :
    (t.rewrite g e).rewrite g' e' = t.rewrite (fun r => g' (g r)) fun x => e' (e x) := by
  induction t using children_induction with
  | h t ih =>
    cases t with
    | record kind body =>
      simp only [children, List.forall_mem_map] at ih
      simp only [rewrite_record, List.map_map]
      rw [List.map_congr_left fun x hx => by rw [Function.comp_apply, ih x hx]]
    | function s =>
      simp only [children, List.forall_mem_cons, List.forall_mem_map] at ih
      simp only [rewrite_function, List.map_map, ih.1]
      rw [List.map_congr_left fun x hx => by rw [Function.comp_apply, ih.2 x hx]]
    | _ => simp_all [children]

variable {g e}

theorem rewrite_eq_self {t : NativeType} (hg : ∀ r ∈ t.references, g r = r)
    (he : ∀ x ∈ t.enumerations, e x = x) : t.rewrite g e = t := by
  induction t using children_induction with
  | h t ih =>
    rw [references_eq] at hg
    rw [enumerations_eq] at he
    have hc : ∀ c ∈ t.children, c.rewrite g e = c := by
      intro c hc
      refine ih c hc (fun r hr => hg r ?_) fun x hx => he x ?_
      · exact List.mem_append_right _ (List.mem_flatMap.mpr ⟨c, hc, hr⟩)
      · exact List.mem_append_right _ (List.mem_flatMap.mpr ⟨c, hc, hx⟩)
    cases t with
    | record kind body =>
      simp only [children, List.forall_mem_map] at hc
      rw [rewrite_record, List.map_congr_left fun x hx => by rw [hc x hx], List.map_id']
    | function s =>
      simp only [children, List.forall_mem_cons, List.forall_mem_map] at hc
      rw [rewrite_function, hc.1, List.map_congr_left fun x hx => by rw [hc.2 x hx], List.map_id']
    | enumeration x => rw [rewrite_enumeration, he x (by simp [enumeration?])]
    | named r => rw [rewrite_named, hg r (by simp [reference?])]
    | _ => simp_all [children]

end HeaderBinding.NativeType
