import HeaderBinding.Proofs.Native.Rewrite
import HeaderBinding.Proofs.Store.Indexed
import HeaderBinding.Resolve.Item

namespace HeaderBinding

variable (f g : Values)

theorem Item.ofMembers_assign (before : Option String) (ms : List Enumerator) :
    ofMembers before (ms.map fun m => { m with value := f m.name }) =
      (ofMembers before ms).map (Item.assign f) := by
  induction ms generalizing before with
  | nil => rfl
  | cons m rest ih => exact congrArg (List.cons _) (ih (some m.name))

theorem Item.exists_of_mem {ms : List Enumerator} {m : Enumerator} (hm : m ∈ ms)
    (before : Option String) :
    ∃ i ∈ ofMembers before ms, i.name = m.name ∧ i.value = m.value := by
  induction ms generalizing before with
  | nil => cases hm
  | cons m' rest ih =>
    rcases List.mem_cons.mp hm with rfl | hm
    · exact ⟨_, List.mem_cons_self .., rfl, rfl⟩
    · obtain ⟨i, hi, hname, hvalue⟩ := ih hm (some m'.name)
      exact ⟨i, List.mem_cons_of_mem _ hi, hname, hvalue⟩

namespace Enumeration

theorem assign_assign (e : Enumeration) : (e.assign f).assign g = e.assign g := by
  simp [assign, Function.comp_def]

theorem items_assign (e : Enumeration) :
    (e.assign f).items = e.items.map (Item.assign f) :=
  Item.ofMembers_assign f none e.members

theorem assign_eq_self {f : Values} {e : Enumeration}
    (h : ∀ i ∈ e.items, i.value = f i.name) : e.assign f = e := by
  have hmembers : ∀ (ms : List Enumerator) (before : Option String),
      (∀ i ∈ Item.ofMembers before ms, i.value = f i.name) →
        ms.map (fun m => { m with value := f m.name }) = ms := by
    intro ms
    induction ms with
    | nil => exact fun _ _ => rfl
    | cons m rest ih =>
      intro before h
      have hm : m.value = f m.name := h _ (List.mem_cons_self ..)
      rw [List.map_cons, ih (some m.name) fun i hi => h i (List.mem_cons_of_mem _ hi), ← hm]
  unfold assign
  rw [hmembers e.members none h]

end Enumeration

namespace NativeType

theorem items_eq (t : NativeType) :
    t.items = t.enumeration?.toList.flatMap Enumeration.items ++ t.children.flatMap items := by
  unfold items
  rw [enumerations_eq, List.flatMap_append, List.flatMap_assoc]

@[simp] theorem items_builtin (b : Builtin) : (builtin b).items = [] :=
  items_eq _

@[simp] theorem items_named (r : Reference) : (named r).items = [] :=
  items_eq _

@[simp] theorem items_pointer (pointee : NativeType) : (pointer pointee).items = pointee.items := by
  simp [items_eq (.pointer pointee), children, enumeration?]

@[simp] theorem items_array (element : NativeType) (rank : UInt32) (length : Option ArrayLength) :
    (array element rank length).items = element.items := by
  simp [items_eq (.array element rank length), children, enumeration?]

@[simp] theorem items_synonym (name : String) (target : NativeType) :
    (synonym name target).items = target.items := by
  simp [items_eq (.synonym name target), children, enumeration?]

@[simp] theorem items_record (kind : RecordKind) (body : Record NativeType) :
    (record kind body).items = body.members.flatMap (·.type.items) := by
  simp [items_eq (.record kind body), children, enumeration?, List.flatMap_map]

@[simp] theorem items_enumeration (e : Enumeration) : (enumeration e).items = e.items := by
  simp [items_eq (.enumeration e), children, enumeration?]

@[simp] theorem items_function (f : Signature NativeType) :
    (function f).items = f.returns.items ++ f.params.flatMap (·.type.items) := by
  simp [items_eq (.function f), children, enumeration?, List.flatMap_map]

@[simp] theorem assign_builtin (b : Builtin) : (builtin b).assign f = builtin b := rfl

@[simp] theorem assign_named (r : Reference) : (named r).assign f = named r := rfl

@[simp] theorem assign_pointer (pointee : NativeType) :
    (pointer pointee).assign f = pointer (pointee.assign f) := rfl

@[simp] theorem assign_array (element : NativeType) (rank : UInt32) (length : Option ArrayLength) :
    (array element rank length).assign f = array (element.assign f) rank length := rfl

@[simp] theorem assign_synonym (name : String) (target : NativeType) :
    (synonym name target).assign f = synonym name (target.assign f) := rfl

@[simp] theorem assign_enumeration (e : Enumeration) :
    (enumeration e).assign f = enumeration (e.assign f) := rfl

@[simp] theorem assign_record (kind : RecordKind) (body : Record NativeType) :
    (record kind body).assign f =
      record kind ⟨body.name, body.members.map fun x => { x with type := x.type.assign f }⟩ :=
  rewrite_record id (Enumeration.assign f) kind body

@[simp] theorem assign_function (s : Signature NativeType) :
    (function s).assign f =
      function { s with
        returns := s.returns.assign f
        params := s.params.map fun x => { x with type := x.type.assign f } } :=
  rewrite_function id (Enumeration.assign f) s

theorem assign_eq_rewrite (t : NativeType) : t.assign f = t.rewrite id (Enumeration.assign f) := rfl

theorem items_assign (t : NativeType) : (t.assign f).items = t.items.map (Item.assign f) := by
  simp only [items, assign_eq_rewrite, enumerations_rewrite, List.flatMap_map, List.map_flatMap,
    Enumeration.items_assign]

theorem references_assign (t : NativeType) : (t.assign f).references = t.references := by
  rw [assign_eq_rewrite, references_rewrite, List.map_id]

theorem assign_assign (t : NativeType) : (t.assign f).assign g = t.assign g := by
  simp only [assign_eq_rewrite, rewrite_rewrite, Enumeration.assign_assign]
  rfl

theorem assign_eq_self {f : Values} {t : NativeType} (h : ∀ i ∈ t.items, i.value = f i.name) :
    t.assign f = t := by
  refine rewrite_eq_self (fun _ _ => rfl) fun e he => Enumeration.assign_eq_self fun i hi => h i ?_
  exact List.mem_flatMap.mpr ⟨e, he, hi⟩

end NativeType

theorem Constant.assign_eq_self {f : Values} {c : Constant} (h : c.value = f c.name) :
    c.assign f = c := by
  rw [assign, ← h]

namespace Typedef

theorem assign_assign (d : Typedef) : (d.assign f).assign g = d.assign g := by
  simp only [assign, NativeType.assign_assign]

theorem assign_eq_self {f : Values} {d : Typedef} (h : ∀ i ∈ d.target.items, i.value = f i.name) :
    d.assign f = d := by
  rw [assign, NativeType.assign_eq_self h]

end Typedef

namespace Definition

@[simp] theorem items_enumeration (e : Enumeration) : (enumeration e).items = e.items := by
  simp [items, enumerations]

@[simp] theorem items_record (kind : RecordKind) (body : Record NativeType) :
    (record kind body).items = body.members.flatMap (·.type.items) := by
  simp [items, enumerations, memberTypes, NativeType.items, List.flatMap_map, List.flatMap_assoc]

@[simp] theorem assign_enumeration (e : Enumeration) :
    (enumeration e).assign f = enumeration (e.assign f) := rfl

@[simp] theorem assign_record (kind : RecordKind) (body : Record NativeType) :
    (record kind body).assign f =
      record kind ⟨body.name, body.members.map fun x => { x with type := x.type.assign f }⟩ :=
  congrArg (fun ms : Id (List (Member NativeType)) => record kind ⟨body.name, ms⟩)
    (List.mapM_pure (m := Id) (l := body.members)
      (f := fun x => ({ x with type := x.type.assign f } : Member NativeType)))

@[simp] theorem name_assign (d : Definition) : (d.assign f).name = d.name := by
  cases d with
  | record kind body => rw [assign_record]; rfl
  | enumeration e => rfl

theorem items_assign (d : Definition) : (d.assign f).items = d.items.map (Item.assign f) := by
  cases d with
  | enumeration e => simp [Enumeration.items_assign]
  | record kind body => simp [NativeType.items_assign, List.flatMap_map, List.map_flatMap]

theorem assign_assign (d : Definition) : (d.assign f).assign g = d.assign g := by
  cases d with
  | enumeration e => simp [Enumeration.assign_assign]
  | record kind body => simp [NativeType.assign_assign, Function.comp_def]

theorem assign_eq_self {f : Values} {d : Definition} (h : ∀ i ∈ d.items, i.value = f i.name) :
    d.assign f = d := by
  cases d with
  | enumeration e =>
    rw [items_enumeration] at h
    rw [assign_enumeration, Enumeration.assign_eq_self h]
  | record kind body =>
    rw [items_record] at h
    have hmembers : ∀ x ∈ body.members, { x with type := x.type.assign f } = x := by
      intro x hx
      rw [NativeType.assign_eq_self fun i hi => h i (List.mem_flatMap.mpr ⟨x, hx, hi⟩)]
    rw [assign_record, List.map_congr_left hmembers, List.map_id']

end Definition

namespace Store

theorem items_assign (s : Store) : (s.assign f).items = s.items.map (Item.assign f) := by
  simp only [items, assign, Table.toList_map, List.map_append, List.map_map, List.flatMap_map,
    List.map_flatMap, Typedef.assign, NativeType.items_assign, Definition.items_assign]
  rfl

theorem assign_assign (s : Store) : (s.assign f).assign g = s.assign g := by
  simp only [assign, Table.map_map, Constant.assign, Typedef.assign_assign, Definition.assign_assign]
  rfl

theorem assign_eq_self {f : Values} {s : Store} (h : ∀ i ∈ s.items, i.value = f i.name) :
    s.assign f = s := by
  simp only [items, List.forall_mem_append, List.forall_mem_map] at h
  obtain ⟨hc, ht, hd⟩ := h
  have hconstants : s.constants.map (Constant.assign f) = s.constants :=
    Table.map_eq_self fun c hmem => Constant.assign_eq_self (hc c hmem)
  have htypedefs : s.typedefs.map (Typedef.assign f) = s.typedefs :=
    Table.map_eq_self fun d hmem =>
      Typedef.assign_eq_self fun i hi => ht i (List.mem_flatMap.mpr ⟨d, hmem, hi⟩)
  have hdefinitions : s.definitions.map (Definition.assign f) = s.definitions :=
    Table.map_eq_self fun d hmem =>
      Definition.assign_eq_self fun i hi => hd i (List.mem_flatMap.mpr ⟨d, hmem, hi⟩)
  rw [assign, hconstants, htypedefs, hdefinitions]

end Store

end HeaderBinding
