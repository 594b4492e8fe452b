import HeaderBinding.Proofs.Graph.Image
import HeaderBinding.Proofs.Resolve.Completion
import HeaderBinding.Proofs.Resolve.Stable

namespace HeaderBinding

open NativeType (mapChildren)

namespace NativeType

theorem mem_enumerations {e : Enumeration} {x : NativeType} :
    e ∈ x.enumerations ↔ x.enumeration? = some e ∨ ∃ c ∈ x.children, e ∈ c.enumerations := by
  rw [enumerations_eq, List.mem_append, List.mem_flatMap, Option.mem_toList]

theorem mem_enumerations_mapChildren {e : Enumeration} {f : NativeType → NativeType} {x : NativeType} :
    e ∈ (x.mapChildren f).enumerations ↔ x.enumeration? = some e ∨ ∃ c ∈ x.children, e ∈ (f c).enumerations := by
  have hown : (x.mapChildren f).enumeration? = x.enumeration? := by cases x <;> rfl
  rw [mem_enumerations, hown, children_mapChildren]
  simp only [List.mem_map, exists_exists_and_eq_and]

end NativeType

namespace Store

variable {s t : Store} {x : NativeType} {e : Enumeration}

def Enumerates (s : Store) (e : Enumeration) : Prop :=
  (∃ d ∈ s.typedefs.toList, e ∈ d.target.enumerations) ∨ ∃ d ∈ s.definitions.toList, e ∈ d.toType.enumerations

theorem mem_items_iff {i : Item} :
    i ∈ s.items ↔ (∃ c ∈ s.constants.toList, c.item = i) ∨ ∃ e, s.Enumerates e ∧ i ∈ e.items := by
  simp only [items, NativeType.items, Definition.items, ← Definition.enumerations_toType, Enumerates, List.mem_append,
    List.mem_map, List.mem_flatMap]
  refine or_congr_right ⟨?_, ?_⟩
  · rintro (⟨d, hd, e, he, hi⟩ | ⟨d, hd, e, he, hi⟩)
    · exact ⟨e, .inl ⟨d, hd, he⟩, hi⟩
    · exact ⟨e, .inr ⟨d, hd, he⟩, hi⟩
  · rintro ⟨e, ⟨d, hd, he⟩ | ⟨d, hd, he⟩, hi⟩
    · exact .inl ⟨d, hd, e, he, hi⟩
    · exact .inr ⟨d, hd, e, he, hi⟩

theorem mem_enumerations_of_image (h : e ∈ (s.image x).enumerations) : e ∈ x.enumerations := by
  induction x using NativeType.children_induction with
  | h x ih =>
    rcases s.image_cases x with hholds | ⟨r, rfl⟩ | himage
    · obtain ⟨k, hk, -, -⟩ := exists_inlineKey_of_holds hholds
      rw [image_of_holds hk hholds, NativeType.enumerations_named] at h
      cases h
    · rw [image_named, NativeType.enumerations_named] at h
      cases h
    · rw [himage, NativeType.mem_enumerations_mapChildren] at h
      exact NativeType.mem_enumerations.mpr (h.imp_right fun ⟨c, hc, he⟩ => ⟨c, hc, ih c hc he⟩)

theorem mem_typedefs_of_byName? {name : String} {d : Typedef} (h : s.byName? name = some (.synonym d)) :
    d ∈ s.typedefs.toList := by
  unfold byName? at h
  cases hdefinition : s.definitions.get? name with
  | some d' =>
    rw [hdefinition] at h
    cases h
  | none =>
    rw [hdefinition] at h
    obtain ⟨d', hd', heq⟩ := Option.map_eq_some_iff.mp h
    cases heq
    exact (Table.mem_of_get?_eq_some hd').1

namespace Images

variable (h : s.Images t)

include h

theorem enumerates_definition {d : Definition} (hd : d ∈ s.definitions.toList)
    (he : e ∈ (d.toType.mapChildren s.image).enumerations) : t.Enumerates e := by
  refine .inr ⟨Declaration.mapRoots s.image d, ?_, ?_⟩
  · rw [h.definitions]
    exact List.mem_map_of_mem hd
  · rw [Definition.toType_mapRoots]
    exact he

theorem enumerates_typedef {d : Typedef} (hd : d ∈ s.typedefs.toList) (he : e ∈ (s.image d.target).enumerations) :
    t.Enumerates e := by
  refine .inl ⟨Declaration.mapRoots s.image d, ?_, he⟩
  rw [h.typedefs]
  exact List.mem_map_of_mem hd

theorem image_toType {name : String} {d : Definition} (hd : s.definitions.get? name = some d) (hname : name ≠ "") :
    ∃ r, s.image d.toType = .named r := by
  obtain ⟨-, rfl⟩ := Table.mem_of_get?_eq_some hd
  have hkey : d.toType.inlineKey? = some (.definedType d.name) := by cases d <;> rfl
  have hcontains : s.contains (.definedType d.name) = true := by
    rw [contains, Key.definedType, h.indexed.definitions.contains_eq]
    exact Option.isSome_iff_exists.mpr ⟨d, hd⟩
  have hname : d.name ≠ "" := hname
  have hnonempty : d.name.isEmpty = false := by simpa using hname
  have hholds : s.holds d.toType = true := by
    rw [holds, hkey, Option.any_some, hcontains]
    simp [Key.definedType, hnonempty]
  exact ⟨_, image_of_holds hkey hholds⟩

theorem enumerated (hx : s.Uniform x) (he : e ∈ x.enumerations) :
    e ∈ (s.image x).enumerations ∨ t.Enumerates e := by
  induction x using NativeType.children_induction with
  | h x ih =>
    have hchildren : e ∈ (x.mapChildren s.image).enumerations ∨ t.Enumerates e := by
      rcases NativeType.mem_enumerations.mp he with hown | ⟨c, hc, he⟩
      · exact .inl (NativeType.mem_enumerations_mapChildren.mpr (.inl hown))
      · refine (ih c hc (hx.child hc) he).imp_left fun he => ?_
        exact NativeType.mem_enumerations_mapChildren.mpr (.inr ⟨c, hc, he⟩)
    rcases s.image_cases x with hholds | ⟨r, rfl⟩ | himage
    · by_cases hstructural : x.isStructural = true
      · obtain ⟨d, rfl, hd, -, -⟩ := (hx.copy hholds).definition hstructural hholds
        exact .inr (hchildren.elim (h.enumerates_definition (Table.mem_of_get?_eq_some hd).1) id)
      · cases x with
        | synonym name target =>
          have hmem : target ∈ (NativeType.synonym name target).children := List.mem_singleton_self _
          rw [NativeType.enumerations_synonym] at he
          have htarget := ih target hmem (hx.child hmem) he
          rcases (hx.copy hholds).synonym with ⟨d, -, hd, rfl⟩ | ⟨d, hd, rfl | ⟨r, rfl, -⟩⟩
          · exact .inr (htarget.elim (h.enumerates_typedef (Table.mem_of_get?_eq_some hd).1) id)
          · refine .inr (htarget.resolve_left fun he => ?_)
            obtain ⟨_, ⟨⟩, -, hname⟩ := exists_inlineKey_of_holds hholds
            obtain ⟨k, himage⟩ := h.image_toType hd hname
            rw [himage, NativeType.enumerations_named] at he
            cases he
          · rw [NativeType.enumerations_named] at he
            cases he
        | builtin b => cases hholds
        | named r => cases hholds
        | _ => exact absurd rfl hstructural
    · rw [NativeType.enumerations_named] at he
      cases he
    · rw [himage]
      exact hchildren

theorem enumerates_image (hroots : ∀ x ∈ s.roots, s.Uniform x) (he : s.Enumerates e) : t.Enumerates e := by
  rcases he with ⟨d, hd, he⟩ | ⟨d, hd, he⟩
  · exact (h.enumerated (hroots d.target (target_mem_roots hd)) he).elim (h.enumerates_typedef hd) id
  · have hchildren : d.toType.children = Declaration.roots d := by cases d <;> rfl
    rcases NativeType.mem_enumerations.mp he with hown | ⟨c, hc, he⟩
    · exact h.enumerates_definition hd (NativeType.mem_enumerations_mapChildren.mpr (.inl hown))
    · have hroot := hroots c (mem_roots_of_definition hd (hchildren ▸ hc))
      refine (h.enumerated hroot he).elim (fun he => h.enumerates_definition hd ?_) id
      exact NativeType.mem_enumerations_mapChildren.mpr (.inr ⟨c, hc, he⟩)

theorem enumerates_of_image (he : t.Enumerates e) : s.Enumerates e := by
  rcases he with ⟨d, hd, he⟩ | ⟨d, hd, he⟩
  · rw [h.typedefs] at hd
    obtain ⟨d, hmem, rfl⟩ := List.mem_map.mp hd
    exact .inl ⟨d, hmem, mem_enumerations_of_image he⟩
  · rw [h.definitions] at hd
    obtain ⟨d, hmem, rfl⟩ := List.mem_map.mp hd
    rw [Definition.toType_mapRoots, NativeType.mem_enumerations_mapChildren] at he
    refine .inr ⟨d, hmem, NativeType.mem_enumerations.mpr ?_⟩
    exact he.imp_right fun ⟨c, hc, he⟩ => ⟨c, hc, mem_enumerations_of_image he⟩

theorem sameItems (hroots : ∀ x ∈ s.roots, s.Uniform x) : SameItems s.items t.items := by
  intro i
  rw [mem_items_iff, mem_items_iff, h.constants]
  refine or_congr_right (exists_congr fun e => and_congr_left fun _ => ?_)
  exact ⟨h.enumerates_image hroots, h.enumerates_of_image⟩

theorem castTarget_eq (hs : s.TellsApart) (hroots : ∀ x ∈ s.roots, s.Uniform x) : t.castTarget = s.castTarget := by
  funext name
  unfold castTarget
  rw [h.byName?_eq]
  cases hnode : s.byName? name with
  | none => rfl
  | some node =>
    cases node with
    | definition d =>
      cases d with
      | record kind body => simp only [Option.map_some, Node.mapRoots, Definition.mapRoots_record, Node.castTarget]
      | enumeration e => rfl
    | synonym d =>
      have hd := mem_typedefs_of_byName? hnode
      have hcanonical := h.mirrors_canonical hs hroots (hroots d.target (target_mem_roots hd))
      simp only [Option.map_some, Node.mapRoots, Typedef.mapRoots_eq, Node.castTarget]
      cases hcanonical with
      | builtin b hc hc' _ => rw [hc, hc']
      | structural x hc hc' _ _ =>
        rw [hc, hc']
        cases x <;> rfl
      | definition d' _ hc hc' =>
        rw [hc']
        cases d' with
        | record kind body =>
          rw [Definition.mapRoots_record]
          rcases hc with hc | ⟨hc, -⟩
          · rw [hc]
          · rw [hc]
            rfl
        | enumeration e =>
          rcases hc with hc | ⟨hc, -⟩
          · rw [hc]
            rfl
          · rw [hc]
            rfl
      | unknown hc hc' =>
        rcases Denoted.isUnknown_cases hc with ⟨_, hc⟩ | ⟨_, hc⟩ <;>
          rcases Denoted.isUnknown_cases hc' with ⟨_, hc'⟩ | ⟨_, hc'⟩ <;>
            rw [hc, hc']

theorem stable (hs : s.TellsApart) (hroots : ∀ x ∈ s.roots, s.Uniform x) (hc : Coherent s.items) (hstable : s.Stable) :
    t.Stable :=
  .of_sameItems (h.sameItems hroots) hc (h.castTarget_eq hs hroots) hstable

end Images

end Store

end HeaderBinding
