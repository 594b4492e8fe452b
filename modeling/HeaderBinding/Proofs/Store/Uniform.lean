import HeaderBinding.Proofs.Emission.Mirror
import HeaderBinding.Proofs.Graph.Way
import HeaderBinding.Proofs.Store.FastLoad
import HeaderBinding.Proofs.Store.Image

namespace HeaderBinding

def NativeType.synonymKey? : NativeType → Option Key
  | .synonym name _ => some (.synonym name)
  | _ => none

namespace Store

def roots (s : Store) : List NativeType :=
  s.typedefs.toList.flatMap Declaration.roots ++
    (s.definitions.toList.flatMap Declaration.roots ++ s.procedures.toList.flatMap Declaration.roots)

theorem target_mem_roots {s : Store} {d : Typedef} (hd : d ∈ s.typedefs.toList) : d.target ∈ s.roots :=
  List.mem_append_left _ (List.mem_flatMap.mpr ⟨d, hd, List.mem_singleton_self _⟩)

theorem mem_roots_of_definition {s : Store} {d : Definition} (hd : d ∈ s.definitions.toList) {x : NativeType}
    (hx : x ∈ Declaration.roots d) : x ∈ s.roots :=
  List.mem_append_right _ (List.mem_append_left _ (List.mem_flatMap.mpr ⟨d, hd, hx⟩))

theorem mem_roots_of_procedure {s : Store} {p : Procedure} (hp : p ∈ s.procedures.toList) {x : NativeType}
    (hx : x ∈ Declaration.roots p) : x ∈ s.roots :=
  List.mem_append_right _ (List.mem_append_right _ (List.mem_flatMap.mpr ⟨p, hp, hx⟩))

def walkKeys (s : Store) : List Key :=
  s.nodeKeys ++ s.roots.flatMap fun x => x.visit.filterMap NativeType.synonymKey?

def TellsApart (s : Store) : Prop :=
  ∀ k ∈ s.walkKeys, ∀ l ∈ s.walkKeys, k.digest = l.digest → k = l

def IsCopy (s : Store) : NativeType → Prop
  | .synonym name target =>
    match s.byName? name with
    | some (.synonym d) => target = d.target
    | some (.definition d) => target = d.toType ∨ ∃ r, target = .named r ∧ r.name = name
    | none => False
  | .record kind body => s.node? (.definedType body.name) = some (.definition (.record kind body))
  | .enumeration e => s.node? (.definedType e.name) = some (.definition (.enumeration e))
  | _ => True

structure Uniform (s : Store) (x : NativeType) : Prop where
  linked : ∀ r ∈ x.references, r.target = s.targetOf? r.name
  copies : ∀ y ∈ x.visit, s.holds y = true → s.IsCopy y
  keys : ∀ y ∈ x.visit, ∀ k, y.synonymKey? = some k → k ∈ s.walkKeys

variable {s t : Store} {x : NativeType}

theorem Uniform.child (h : s.Uniform x) {c : NativeType} (hc : c ∈ x.children) : s.Uniform c where
  linked r hr := h.linked r (NativeType.mem_references_of_child hc hr)
  copies y hy := h.copies y (NativeType.mem_visit_of_child hc hy)
  keys y hy := h.keys y (NativeType.mem_visit_of_child hc hy)

theorem get?_of_toList_eq_map {α : Type} [Declaration α] {f : α → α}
    (hf : ∀ a, Declaration.name (f a) = Declaration.name a)
    {u v : Table α} (hu : u.Indexed) (hv : v.Indexed) (h : v.toList = u.toList.map f) (name : String) :
    v.get? name = (u.get? name).map f := by
  rw [hv.get?_eq, hu.get?_eq, h, List.find?_map]
  congr 2
  funext a
  rw [Function.comp_apply, hf]

theorem targetOf?_of_toList_eq_map {f : Typedef → Typedef} {g : Definition → Definition}
    (hf : ∀ d, Declaration.name (f d) = Declaration.name d) (hg : ∀ d, Declaration.name (g d) = Declaration.name d)
    (hs : s.Indexed) (ht : t.Indexed) (htypedefs : t.typedefs.toList = s.typedefs.toList.map f)
    (hdefinitions : t.definitions.toList = s.definitions.toList.map g) : t.targetOf? = s.targetOf? := by
  funext name
  unfold targetOf? byName?
  rw [get?_of_toList_eq_map hf hs.typedefs ht.typedefs htypedefs,
    get?_of_toList_eq_map hg hs.definitions ht.definitions hdefinitions]
  cases s.definitions.get? name with
  | some d => exact congrArg (fun n => some (Target.declaration (.definedType n))) (hg d)
  | none =>
    cases s.typedefs.get? name with
    | some d => exact congrArg (fun n => some (Target.declaration (.synonym n))) (hf d)
    | none => rfl

end Store

def Node.mapRoots (f : NativeType → NativeType) : Node → Node
  | .synonym d => .synonym (Declaration.mapRoots f d)
  | .definition d => .definition (Declaration.mapRoots f d)

namespace Store

structure Images (s t : Store) : Prop where
  indexed : s.Indexed
  indexed_image : t.Indexed
  typedefs : t.typedefs.toList = s.typedefs.toList.map (Declaration.mapRoots s.image)
  definitions : t.definitions.toList = s.definitions.toList.map (Declaration.mapRoots s.image)
  constants : t.constants.toList = s.constants.toList
  procedures : t.procedures.toList = s.procedures.toList.map (Declaration.mapRoots s.image)

namespace Images

variable {s t : Store} (h : s.Images t)

include h

theorem node?_eq (k : Key) : t.node? k = (s.node? k).map (Node.mapRoots s.image) := by
  obtain ⟨category, name⟩ := k
  cases category with
  | synonym =>
    simp only [node?, get?_of_toList_eq_map (LawfulDeclaration.name_mapRoots _) h.indexed.typedefs
      h.indexed_image.typedefs h.typedefs, Option.map_map]
    rfl
  | definedType =>
    simp only [node?, get?_of_toList_eq_map (LawfulDeclaration.name_mapRoots _) h.indexed.definitions
      h.indexed_image.definitions h.definitions, Option.map_map]
    rfl
  | constant => rfl
  | procedure => rfl

theorem byName?_eq (name : String) : t.byName? name = (s.byName? name).map (Node.mapRoots s.image) := by
  rw [Store.byName?_eq, Store.byName?_eq, h.node?_eq, h.node?_eq, Option.map_or]

theorem boundValue?_eq (name : String) : boundValue? t name = boundValue? s name := by
  unfold boundValue?
  rw [get?_congr h.indexed_image.constants h.indexed.constants h.constants]

end Images

def Hides (s : Store) (name : String) : Prop :=
  s.holds (.synonym name .void) = true ∧ ∃ d, s.definitions.get? name = some d

def Passed (s : Store) (seen : Seen) : Prop :=
  ∀ digest ∈ seen.digests, ∃ name, digest = (Key.synonym name).digest ∧ Key.synonym name ∈ s.walkKeys ∧ ¬s.Hides name

variable {s t : Store} {seen : Seen} {x : NativeType} {name : String}

theorem passed_nothing (s : Store) : s.Passed .nothing := by
  intro digest hdigest
  cases hdigest

theorem Passed.add (h : s.Passed seen) (hkey : .synonym name ∈ s.walkKeys) (hshown : ¬s.Hides name) :
    s.Passed (seen.add (.synonym name)) := by
  intro digest hdigest
  rcases List.mem_cons.mp hdigest with rfl | hdigest
  · exact ⟨name, rfl, hkey, hshown⟩
  · exact h digest hdigest

theorem TellsApart.has_add (hs : s.TellsApart) {k l : Key} (hk : k ∈ s.walkKeys) (hl : l ∈ s.walkKeys) (hne : l ≠ k) :
    (seen.add k).has l = seen.has l := by
  have hdigest : l.digest ≠ k.digest := fun heq => hne (hs l hl k hk heq)
  simp [Seen.has, Seen.add, hdigest]

theorem Passed.exists_of_has (hs : s.TellsApart) (h : s.Passed seen) {k : Key} (hk : k ∈ s.walkKeys)
    (hhas : seen.has k = true) : ∃ name, k = .synonym name ∧ ¬s.Hides name := by
  obtain ⟨name, hdigest, hkey, hshown⟩ := h k.digest (by simpa [Seen.has] using hhas)
  exact ⟨name, hs k hk _ hkey hdigest, hshown⟩

theorem Passed.has_definedType (hs : s.TellsApart) (h : s.Passed seen) (hkey : .definedType name ∈ s.walkKeys) :
    seen.has (.definedType name) = false := by
  rw [Bool.eq_false_iff]
  intro hhas
  obtain ⟨name', hk, -⟩ := h.exists_of_has hs hkey hhas
  cases hk

theorem Passed.has_hidden (hs : s.TellsApart) (h : s.Passed seen) (hkey : .synonym name ∈ s.walkKeys)
    (hhides : s.Hides name) : seen.has (.synonym name) = false := by
  rw [Bool.eq_false_iff]
  intro hhas
  obtain ⟨name', hk, hshown⟩ := h.exists_of_has hs hkey hhas
  cases hk
  exact hshown hhides

end Store

end HeaderBinding
