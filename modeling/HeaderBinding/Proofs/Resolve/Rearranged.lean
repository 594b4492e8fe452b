import HeaderBinding.Proofs.Resolve.Linking
import HeaderBinding.Proofs.Resolve.Valuation

namespace HeaderBinding.Store

structure Rearranged (s t : Store) : Prop where
  constants : s.constants.toList.Perm t.constants.toList
  typedefs : s.typedefs.toList.Perm t.typedefs.toList
  definitions : s.definitions.toList.Perm t.definitions.toList

variable {s t : Store} {f g : Values}

theorem Indexed.link (h : s.Indexed) : s.link.1.Indexed := by
  rw [link_eq]
  exact ⟨h.typedefs.map (name_relink s.targetOf?), h.definitions.map (name_relink s.targetOf?),
    h.constants, h.procedures.map (name_relink s.targetOf?)⟩

theorem Indexed.assign (h : s.Indexed) (f : Values) : (s.assign f).Indexed :=
  ⟨h.typedefs.map (f := Typedef.assign f) fun _ => rfl,
    h.definitions.map (Definition.name_assign f),
    h.constants.map (f := Constant.assign f) fun _ => rfl, h.procedures⟩

namespace Rearranged

theorem items (h : s.Rearranged t) : s.items.Perm t.items :=
  (h.constants.map _).append ((h.typedefs.flatMap_right _).append (h.definitions.flatMap_right _))

theorem rules (h : s.Rearranged t) : s.rules.Perm t.rules :=
  h.items.map _

theorem sameItems (h : s.Rearranged t) : SameItems s.rules t.rules :=
  fun _ => h.rules.mem_iff

theorem names_nodup (h : s.Rearranged t) (hd : (s.items.map (·.name)).Nodup) :
    (t.items.map (·.name)).Nodup :=
  (h.items.map _).nodup_iff.mp hd

theorem node?_eq (hs : s.Indexed) (ht : t.Indexed) (h : s.Rearranged t) (k : Key) :
    s.node? k = t.node? k := by
  obtain ⟨category, n⟩ := k
  cases category with
  | synonym => simp only [node?, hs.typedefs.get?_perm ht.typedefs h.typedefs]
  | definedType => simp only [node?, hs.definitions.get?_perm ht.definitions h.definitions]
  | constant => rfl
  | procedure => rfl

theorem castTarget_eq (hs : s.Indexed) (ht : t.Indexed) (h : s.Rearranged t) :
    s.castTarget = t.castTarget := by
  refine castTarget_congr (f := s.valueOf) fun k => ?_
  rw [node?_eq hs ht h k]

theorem valueOf_eq (h : s.Rearranged t) (hd : (s.items.map (·.name)).Nodup) :
    s.valueOf = t.valueOf := by
  have hd' := h.names_nodup hd
  funext n
  by_cases hn : n ∈ s.items.map (·.name)
  · obtain ⟨i, hi, rfl⟩ := List.mem_map.mp hn
    rw [value_eq hd hi, value_eq hd' (h.items.mem_iff.mp hi)]
  · have hn' : n ∉ t.items.map (·.name) := by rwa [← (h.items.map _).mem_iff]
    have hs : s.valueOf n = none := (learned_knowledge s).value_eq_none hn
    have ht : t.valueOf n = none := (learned_knowledge t).value_eq_none hn'
    rw [hs, ht]

theorem solution (hs : s.Indexed) (ht : t.Indexed) (h : s.Rearranged t)
    (hd : (s.items.map (·.name)).Nodup) (hf : s.Solution f) : t.Solution f := by
  obtain ⟨hderives, hclosed⟩ := hf
  rw [castTarget_eq hs ht h, h.valueOf_eq hd] at hderives
  rw [castTarget_eq hs ht h] at hclosed
  exact ⟨h.sameItems.derives hderives, h.sameItems.closed hclosed⟩

theorem failureOf_eq (hs : s.Indexed) (ht : t.Indexed) (h : s.Rearranged t) (f : Values) :
    s.failureOf f = t.failureOf f := by
  funext i
  unfold failureOf
  rw [castTarget_eq hs ht h, h.sameItems.contextOf_eq]

end Rearranged

theorem outcome_of_rearranged (hs : s.Indexed) (ht : t.Indexed) (h : s.Rearranged t)
    (hd : (s.items.map (·.name)).Nodup) :
    ∃ f failure, s.Outcome f failure ∧ t.Outcome f failure ∧
      ∀ limits, (s.valuateAll limits).Outcome f failure ∧
        ((s.valuateAll limits).valuate none).1 = (s.valuate none).1 := by
  obtain ⟨f, hf, -, hfailures⟩ := swept_none hd
  have hd' := h.names_nodup hd
  refine ⟨f, fun n => (s.swept none).2.1.failures[n]?, hf.outcome hd hfailures, ?_, ?_⟩
  · refine (h.solution hs ht hd hf).outcome hd' fun i hi hnone => ?_
    rw [← h.failureOf_eq hs ht f]
    exact hfailures i (h.rules.mem_iff.mpr hi) hnone
  · intro limits
    obtain ⟨g, hg, hderives⟩ := valuateAll_eq limits hd
    have hnodup : ((s.assign g).items.map (·.name)).Nodup := by rwa [names_assign]
    have hsolution : (s.assign g).Solution f := hf.assign hd hderives
    -- A valuation that was made before gives values of the same solution, so it changes neither the rules nor what
    -- fails.
    have houtcome : (s.assign g).Outcome f fun n => (s.swept none).2.1.failures[n]? := by
      refine hsolution.outcome hnodup fun i hi hnone => ?_
      rw [rules_assign] at hi
      rw [hfailures i hi hnone, failureOf, failureOf, rules_assign,
        castTarget_assign (node?_assign g s)]
    rw [hg]
    refine ⟨houtcome, ?_⟩
    rw [houtcome.store_eq, assign_assign, (valuate_none hd hf).1]

theorem outcome_of_swapped_constants :
    let a : Constant := ⟨"A", "B + 1", .declared, none⟩
    let b : Constant := ⟨"B", "2", .preprocessor, none⟩
    ∃ f failure, (ofConstants [a, b]).Outcome f failure ∧ (ofConstants [b, a]).Outcome f failure ∧
      ∀ limits, ((ofConstants [a, b]).valuateAll limits).Outcome f failure ∧
        (((ofConstants [a, b]).valuateAll limits).valuate none).1 =
          ((ofConstants [a, b]).valuate none).1 := by
  intro a b
  have hd : ([a, b].map Declaration.name).Nodup := by decide
  have hd' : ([b, a].map Declaration.name).Nodup := by decide
  have hitems : ((ofConstants [a, b]).items.map (·.name)).Nodup := by
    rw [items_ofConstants]
    decide
  exact outcome_of_rearranged (indexed_ofConstants hd) (indexed_ofConstants hd')
    ⟨.swap b a [], .refl _, .refl _⟩ hitems

end HeaderBinding.Store
