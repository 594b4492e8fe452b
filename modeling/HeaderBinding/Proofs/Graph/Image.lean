import HeaderBinding.Proofs.Store.Uniform

namespace HeaderBinding

namespace Canonical.Mirrors

variable {image : NativeType → NativeType} {covered : NativeType → Prop} {s : Store} {c c' : Canonical}

theorem through (h : c.Mirrors image covered s c') (name : String) :
    (c.through name).Mirrors image covered s (c'.through name) := by
  cases h with
  | builtin b hc hc' hconst => exact .builtin b hc hc' hconst
  | structural x hc hc' howner hx =>
    refine .structural x hc hc' ?_ hx
    rw [Canonical.through, Canonical.through, howner]
  | definition d hd hc hc' => exact .definition d hd hc hc'
  | unknown hc hc' => exact .unknown hc hc'

theorem qualified (h : c.Mirrors image covered s c') (isConst : Bool) :
    (c.qualified isConst).Mirrors image covered s (c'.qualified isConst) := by
  cases h with
  | builtin b hc hc' hconst =>
    refine .builtin b hc hc' ?_
    rw [Canonical.qualified, Canonical.qualified, hconst]
  | structural x hc hc' howner hx => exact .structural x hc hc' howner hx
  | definition d hd hc hc' => exact .definition d hd hc hc'
  | unknown hc hc' => exact .unknown hc hc'

end Canonical.Mirrors

namespace Store

variable {s t : Store} {seen : Seen} {x : NativeType} {c : Canonical} {name : String}

theorem targetOf?_of_definition {d : Definition} (h : s.definitions.get? name = some d) :
    s.targetOf? name = some (.declaration (.definedType name)) := by
  rw [targetOf?, byName?, h]
  exact congrArg (fun n => some (Target.declaration (.definedType n))) (Table.mem_of_get?_eq_some h).2

theorem targetOf?_of_typedef {d : Typedef} (hnone : s.definitions.get? name = none)
    (h : s.typedefs.get? name = some d) :
    s.targetOf? name = some (.declaration (.synonym name)) := by
  rw [targetOf?, byName?, hnone, h]
  exact congrArg (fun n => some (Target.declaration (.synonym n))) (Table.mem_of_get?_eq_some h).2

theorem definitions_get?_of_targetOf? {k : Key} {d : Typedef} (h : s.targetOf? name = some (.declaration k))
    (hk : s.node? k = some (.synonym d)) : k = .synonym name ∧ s.definitions.get? name = none := by
  unfold targetOf? byName? at h
  cases hdefinition : s.definitions.get? name with
  | some d' =>
    rw [hdefinition] at h
    cases h
    simp [node?, Node.key, Key.definedType] at hk
  | none =>
    rw [hdefinition] at h
    cases htypedef : s.typedefs.get? name with
    | some d' =>
      rw [htypedef] at h
      cases h
      exact ⟨congrArg Key.synonym (Table.mem_of_get?_eq_some htypedef).2, rfl⟩
    | none =>
      rw [htypedef] at h
      cases hspelling : Builtin.ofSpelling? name <;> simp [hspelling] at h

theorem node?_definedType {d : Definition} (h : s.definitions.get? name = some d) :
    s.node? (.definedType name) = some (.definition d) := by
  simp only [node?, Key.definedType, h, Option.map_some]

theorem node?_synonym {d : Typedef} (h : s.typedefs.get? name = some d) :
    s.node? (.synonym name) = some (.synonym d) := by
  simp only [node?, Key.synonym, h, Option.map_some]

theorem IsCopy.definition (h : s.IsCopy x) (hx : x.isStructural = true) (hholds : s.holds x = true) :
    ∃ d : Definition, x = d.toType ∧ s.definitions.get? d.name = some d ∧ d.name ≠ "" ∧
      x.inlineKey? = some (.definedType d.name) := by
  have hget : ∀ {name : String} {d : Definition}, s.node? (.definedType name) = some (.definition d) →
      s.definitions.get? name = some d := by
    intro name d hd
    obtain ⟨d', hd', heq⟩ := Option.map_eq_some_iff.mp hd
    cases heq
    exact hd'
  obtain ⟨k, hk, -, hname⟩ := exists_inlineKey_of_holds hholds
  cases x with
  | record kind body =>
    cases hk
    exact ⟨.record kind body, rfl, hget h, hname, rfl⟩
  | enumeration e =>
    cases hk
    exact ⟨.enumeration e, rfl, hget h, hname, rfl⟩
  | synonym name target => cases hx
  | _ => cases hk

theorem IsCopy.synonym {target : NativeType} (h : s.IsCopy (.synonym name target)) :
    (∃ d, s.definitions.get? name = none ∧ s.typedefs.get? name = some d ∧ target = d.target) ∨
      ∃ d, s.definitions.get? name = some d ∧ (target = d.toType ∨ ∃ r, target = .named r ∧ r.name = name) := by
  unfold IsCopy byName? at h
  cases hdefinition : s.definitions.get? name with
  | some d =>
    simp only [hdefinition] at h
    exact .inr ⟨d, rfl, h⟩
  | none =>
    cases htypedef : s.typedefs.get? name with
    | none => simp [hdefinition, htypedef] at h
    | some d =>
      simp only [hdefinition, htypedef] at h
      exact .inl ⟨d, rfl, rfl, h⟩

theorem Uniform.copy (h : s.Uniform x) (hholds : s.holds x = true) : s.IsCopy x :=
  h.copies x x.mem_visit_self hholds

theorem Uniform.target_eq {r : Reference} (h : s.Uniform (.named r)) : r.target = s.targetOf? r.name :=
  h.linked r (by simp)

theorem Uniform.image_named {r : Reference} (h : s.Uniform (.named r)) : s.image (.named r) = .named r := by
  rw [Store.image_named, Reference.linkedAnew, ← h.target_eq]

theorem Uniform.synonym_mem {target : NativeType} (h : s.Uniform (.synonym name target)) :
    .synonym name ∈ s.walkKeys :=
  h.keys (.synonym name target) (NativeType.mem_visit_self _) _ rfl

theorem definedType_mem_walkKeys {d : Definition} (h : s.definitions.get? name = some d) :
    .definedType name ∈ s.walkKeys :=
  List.mem_append_left _ (mem_nodeKeys_of_node?_eq_some (node?_definedType h))

theorem typedef_mem_walkKeys {d : Typedef} (h : s.typedefs.get? name = some d) : .synonym name ∈ s.walkKeys :=
  List.mem_append_left _ (mem_nodeKeys_of_node?_eq_some (node?_synonym h))

theorem isConst_linkedAnew (T : String → Option Target) (name : String) :
    ((Reference.unlinked name .empty).linkedAnew T).isConst = false := by
  change Qualifiers.empty.has .const = false
  decide

namespace Images

variable (h : s.Images t)

include h

theorem node?_of_definition {k : Key} {d : Definition} (hk : s.node? k = some (.definition d)) :
    t.node? k = some (.definition (Declaration.mapRoots s.image d)) := by
  rw [h.node?_eq, hk]
  rfl

theorem node?_of_typedef {k : Key} {d : Typedef} (hk : s.node? k = some (.synonym d)) :
    t.node? k = some (.synonym (Declaration.mapRoots s.image d)) := by
  rw [h.node?_eq, hk]
  rfl

theorem image_definition {k : Key} (hk : x.inlineKey? = some k) (hholds : s.holds x = true) {d : Definition}
    (hd : s.definitions.get? k.name = some d) (hseen : seen.has (.definedType k.name) = false) :
    ((s.image x).canonicalFrom t seen).denoted = .definition (Declaration.mapRoots s.image d) := by
  have htarget : ((Reference.unlinked k.name .empty).linkedAnew s.targetOf?).target =
      some (.declaration (.definedType k.name)) := targetOf?_of_definition hd
  rw [image_of_holds hk hholds, (Leads.definition htarget hseen (h.node?_of_definition (node?_definedType hd))).eq]
  rfl

theorem mirrors_definition {k : Key} (hk : x.inlineKey? = some k) (hholds : s.holds x = true) {d : Definition}
    (hd : s.definitions.get? k.name = some d) (hseen : seen.has (.definedType k.name) = false)
    (hc : c.denoted = .definition d ∨ c.denoted = .structural d.toType ∧ d.name ≠ "") :
    c.Mirrors s.image s.Uniform s ((s.image x).canonicalFrom t seen) :=
  .definition d (Table.mem_of_get?_eq_some hd).1 hc (h.image_definition hk hholds hd hseen)

theorem canonicalFrom_image_synonym {target : NativeType} (hx : s.Uniform (.synonym name target))
    (hshown : ¬s.Hides name) :
    (s.image (.synonym name target)).canonicalFrom t seen =
      if seen.has (.synonym name) then .of (.cycle name)
      else ((s.image target).canonicalFrom t (seen.add (.synonym name))).through name := by
  cases hholds : s.holds (.synonym name target) with
  | false =>
    rw [image_of_not_holds rfl hholds]
    exact NativeType.canonicalFrom_synonym ..
  | true =>
    rcases (hx.copy hholds).synonym with ⟨d, hnone, hd, rfl⟩ | ⟨d, hd, -⟩
    · let r := (Reference.unlinked name .empty).linkedAnew s.targetOf?
      have himage : s.image (.synonym name d.target) = .named r := image_of_holds rfl hholds
      have hname : d.name = name := (Table.mem_of_get?_eq_some hd).2
      have htarget : r.target = some (.declaration (.synonym name)) := targetOf?_of_typedef hnone hd
      have hnode := h.node?_of_typedef (node?_synonym hd)
      have hqualified : ∀ c : Canonical, c.qualified r.isConst = c := by
        intro c
        rw [isConst_linkedAnew]
        rfl
      rw [himage]
      by_cases hseen : seen.has (.synonym name) = true
      · rw [if_pos hseen, (Leads.cycle htarget hseen).eq, hqualified]
        rfl
      · rw [if_neg hseen,
          (Leads.typedef htarget (by simpa using hseen) hnode (leads_canonicalFrom t _ _)).eq, hqualified]
        exact congrArg (Canonical.through · _) hname
    · exact absurd ⟨hholds, d, hd⟩ hshown

theorem mirrors_hidden {target : NativeType} (hs : s.TellsApart) (hx : s.Uniform (.synonym name target))
    (hseen : s.Passed seen) (hhides : s.Hides name) (hc : Leads s (seen.add (.synonym name)) target c) :
    (c.through name).Mirrors s.image s.Uniform s ((s.image (.synonym name target)).canonicalFrom t seen) := by
  obtain ⟨hholds, d, hd⟩ := hhides
  have hholds : s.holds (.synonym name target) = true := hholds
  have hunseen := hseen.has_definedType hs (definedType_mem_walkKeys hd)
  refine h.mirrors_definition rfl hholds hd hunseen ?_
  rcases (hx.copy hholds).synonym with ⟨_, hnone, -⟩ | ⟨d', hd', htarget⟩
  · rw [hnone] at hd
    cases hd
  · obtain rfl : d' = d := Option.some.inj (hd'.symm.trans hd)
    rcases htarget with rfl | ⟨r, rfl, rfl⟩
    · have hname : d'.name ≠ "" := by
        obtain ⟨k, hk, -, hname⟩ := exists_inlineKey_of_holds hholds
        cases hk
        rw [show d'.name = name from (Table.mem_of_get?_eq_some hd).2]
        exact hname
      have hstructural : d'.toType.isStructural = true := by cases d' <;> rfl
      rw [← hc.eq, NativeType.canonicalFrom_of_isStructural _ _ hstructural]
      exact .inr ⟨rfl, hname⟩
    · have htarget : r.target = some (.declaration (.definedType r.name)) :=
        (hx.child (List.mem_singleton_self _)).target_eq.trans (targetOf?_of_definition hd)
      have hkey := definedType_mem_walkKeys hd
      have hadded : (seen.add (.synonym r.name)).has (.definedType r.name) = false := by
        rw [hs.has_add hx.synonym_mem hkey nofun]
        exact hunseen
      rw [← hc.eq, (Leads.definition htarget hadded (node?_definedType hd)).eq]
      exact .inl rfl

theorem mirrors_canonicalFrom (hs : s.TellsApart) (htypedefs : ∀ d ∈ s.typedefs.toList, s.Uniform d.target)
    (hx : s.Uniform x) (hseen : s.Passed seen) (hc : Leads s seen x c) :
    c.Mirrors s.image s.Uniform s ((s.image x).canonicalFrom t seen) := by
  -- Along the way, which the image follows; at a synonym that a definition hides it takes the way of the definition.
  induction hc with
  | builtin seen b =>
    have himage : s.image (.builtin b) = .builtin b := rfl
    rw [himage, NativeType.canonicalFrom]
    exact .builtin b rfl rfl rfl
  | @structural seen x hstructural =>
    cases hholds : s.holds x with
    | true =>
      obtain ⟨d, rfl, hd, hname, hk⟩ := (hx.copy hholds).definition hstructural hholds
      have hunseen := hseen.has_definedType hs (definedType_mem_walkKeys hd)
      exact h.mirrors_definition hk hholds hd hunseen (.inr ⟨rfl, hname⟩)
    | false =>
      have hnone : x.reference? = none := by cases x <;> first | rfl | cases hstructural
      have himage : (x.mapChildren s.image).isStructural = true := by cases x <;> first | rfl | cases hstructural
      rw [image_of_not_holds hnone hholds, NativeType.canonicalFrom_of_isStructural t seen himage]
      exact .structural x rfl rfl rfl fun c hc => hx.child hc
  | @again seen name target hhas =>
    by_cases hhides : s.Hides name
    · rw [hseen.has_hidden hs hx.synonym_mem hhides] at hhas
      cases hhas
    · rw [h.canonicalFrom_image_synonym hx hhides, if_pos hhas]
      exact .unknown rfl rfl
  | @synonym seen name target c hunseen hc ih =>
    by_cases hhides : s.Hides name
    · exact h.mirrors_hidden hs hx hseen hhides hc
    · rw [h.canonicalFrom_image_synonym hx hhides, if_neg (by simp [hunseen])]
      exact (ih (hx.child (List.mem_singleton_self _)) (hseen.add hx.synonym_mem hhides)).through name
  | @unlinked seen r htarget =>
    rw [hx.image_named, (Leads.unlinked seen htarget).eq]
    exact .unknown rfl rfl
  | @spelled seen r b htarget =>
    rw [hx.image_named, (Leads.spelled seen htarget).eq]
    exact .builtin b rfl rfl rfl
  | @cycle seen r k htarget hhas =>
    rw [hx.image_named, (Leads.cycle htarget hhas).eq]
    exact .unknown rfl rfl
  | @missing seen r k htarget hunseen hk =>
    have hnode : t.node? k = none := by rw [h.node?_eq, hk]; rfl
    rw [hx.image_named, (Leads.missing htarget hunseen hnode).eq]
    exact .unknown rfl rfl
  | @definition seen r k d htarget hunseen hk =>
    rw [hx.image_named, (Leads.definition htarget hunseen (h.node?_of_definition hk)).eq]
    exact .definition d (definition_of_node? hk).1 (.inl rfl) rfl
  | @typedef seen r k d c htarget hunseen hk _ ih =>
    obtain ⟨rfl, hnone⟩ := definitions_get?_of_targetOf? (hx.target_eq.symm.trans htarget) hk
    have hshown : ¬s.Hides r.name := by
      rintro ⟨-, d', hd'⟩
      rw [hnone] at hd'
      cases hd'
    have hd : s.typedefs.get? r.name = some d := by
      obtain ⟨d', hd', heq⟩ := Option.map_eq_some_iff.mp hk
      cases heq
      exact hd'
    rw [hx.image_named, (Leads.typedef htarget hunseen (h.node?_of_typedef hk) (leads_canonicalFrom t _ _)).eq]
    have htargets := htypedefs d (Table.mem_of_get?_eq_some hd).1
    exact ((ih htargets (hseen.add (typedef_mem_walkKeys hd) hshown)).through d.name).qualified r.isConst

theorem mirrors_canonical (hs : s.TellsApart) (hroots : ∀ x ∈ s.roots, s.Uniform x) (hx : s.Uniform x) :
    (x.canonical s).Mirrors s.image s.Uniform s ((s.image x).canonical t) :=
  h.mirrors_canonicalFrom hs (fun d hd => hroots d.target (target_mem_roots hd)) hx s.passed_nothing
    (leads_canonicalFrom s .nothing x)

theorem mirrors (hs : s.TellsApart) (hroots : ∀ x ∈ s.roots, s.Uniform x) : s.Mirrors s.image s.Uniform t where
  typedefs := h.typedefs
  definitions := h.definitions
  constants := h.constants
  procedures := h.procedures
  typedef_covered _ hd x hx := hroots x (List.mem_singleton.mp hx ▸ target_mem_roots hd)
  definition_covered _ hd x hx := hroots x (mem_roots_of_definition hd hx)
  procedure_covered _ hp x hx := hroots x (mem_roots_of_procedure hp hx)
  boundValue?_eq := h.boundValue?_eq
  canonical _ hx := h.mirrors_canonical hs hroots hx
  same_image _ _ := s.same_mapChildren_image

end Images

end Store

end HeaderBinding
