import HeaderBinding.Proofs.Resolve.Fixpoint

namespace HeaderBinding

structure Learned (items : List Item) (k : Knowledge) : Prop where
  value_mem : ∀ n v, k.values[n]? = some v → ∃ i ∈ items, i.name = n ∧ i.value = some v
  known : ∀ i ∈ items, i.value ≠ none → k.values[i.name]? ≠ none
  mem_pending : ∀ n, n ∈ k.pending ↔ n ∈ items.map (·.name) ∧ k.values[n]? = none

theorem learned_nothing : Learned [] .nothing where
  value_mem _ _ h := by simp [Knowledge.nothing] at h
  known := nofun
  mem_pending _ := by simp [Knowledge.nothing]

namespace Knowledge

theorem values_defer (k : Knowledge) (name : String) : (k.defer name).values = k.values := by
  unfold defer
  split <;> rfl

theorem mem_pending_defer (k : Knowledge) (name n : String) :
    n ∈ (k.defer name).pending ↔ n ∈ k.pending ∨ n = name ∧ k.values[name]? = none := by
  unfold defer
  rw [Std.HashMap.contains_eq_isSome_getElem?]
  cases k.values[name]? with
  | some v => simp
  | none =>
    rw [Option.isSome_none, if_neg Bool.false_ne_true, Std.HashSet.mem_insert, beq_iff_eq]
    constructor
    · rintro (rfl | hn)
      · exact .inr ⟨rfl, rfl⟩
      · exact .inl hn
    · rintro (hn | ⟨rfl, -⟩)
      · exact .inr hn
      · exact .inl rfl

end Knowledge

namespace Learned

variable {items : List Item} {k : Knowledge} {i : Item}

theorem define (h : Learned items k) {v : TypedLiteral} (hvalue : i.value = some v) :
    Learned (items ++ [i]) (k.define i.name v) := by
  have hvalues : ∀ n, (k.define i.name v).values[n]? = if i.name = n then some v else k.values[n]? := by
    intro n
    simp [Knowledge.define, Std.HashMap.getElem?_insert]
  constructor
  · intro n w hw
    rw [hvalues] at hw
    by_cases hn : i.name = n
    · rw [if_pos hn] at hw
      exact ⟨i, List.mem_append_right _ (List.mem_singleton_self i), hn, hvalue.trans hw⟩
    · rw [if_neg hn] at hw
      obtain ⟨j, hj, hjw⟩ := h.value_mem n w hw
      exact ⟨j, List.mem_append_left _ hj, hjw⟩
  · intro j hj hne
    rw [hvalues]
    by_cases hn : i.name = j.name
    · rw [if_pos hn]
      exact Option.some_ne_none v
    · rw [if_neg hn]
      rcases List.mem_append.mp hj with hj | hj
      · exact h.known j hj hne
      · exact absurd (congrArg Item.name (List.mem_singleton.mp hj)).symm hn
  · intro n
    rw [hvalues]
    simp only [Knowledge.define, Std.HashSet.mem_erase, h.mem_pending, List.map_append, List.map_cons, List.map_nil,
      List.mem_append, List.mem_singleton]
    by_cases hn : i.name = n
    · simp [hn]
    · simp [hn, Ne.symm hn]

theorem defer (h : Learned items k) (hvalue : i.value = none) : Learned (items ++ [i]) (k.defer i.name) := by
  constructor
  · intro n w hw
    rw [Knowledge.values_defer] at hw
    obtain ⟨j, hj, hjw⟩ := h.value_mem n w hw
    exact ⟨j, List.mem_append_left _ hj, hjw⟩
  · intro j hj hne
    rw [Knowledge.values_defer]
    rcases List.mem_append.mp hj with hj | hj
    · exact h.known j hj hne
    · rw [List.mem_singleton.mp hj] at hne
      exact absurd hvalue hne
  · intro n
    rw [Knowledge.values_defer, Knowledge.mem_pending_defer, h.mem_pending, List.map_append, List.mem_append,
      List.map_singleton, List.mem_singleton]
    constructor
    · rintro (⟨hn, hv⟩ | ⟨rfl, hv⟩)
      · exact ⟨.inl hn, hv⟩
      · exact ⟨.inr rfl, hv⟩
    · rintro ⟨hn | rfl, hv⟩
      · exact .inl ⟨hn, hv⟩
      · exact .inr ⟨rfl, hv⟩

theorem learn (h : Learned items k) (i : Item) : Learned (items ++ [i]) (k.learn i.name i.value) := by
  cases hvalue : i.value with
  | some v => exact h.define hvalue
  | none => exact h.defer hvalue

end Learned

theorem learned_foldl (items : List Item) :
    Learned items (items.foldl (fun k i => k.learn i.name i.value) .nothing) := by
  induction items using List.reverseRecOn with
  | nil => exact learned_nothing
  | append_singleton items i ih =>
    rw [List.foldl_append]
    exact ih.learn i

namespace Learned

variable {items : List Item} {k : Knowledge}

theorem value_eq_none_iff (h : Learned items k) (n : String) :
    k.values[n]? = none ↔ ∀ i ∈ items, i.name = n → i.value = none := by
  constructor
  · rintro hnone i hi rfl
    by_contra hne
    exact h.known i hi hne hnone
  · intro hnone
    cases hv : k.values[n]? with
    | none => rfl
    | some v =>
      obtain ⟨i, hi, hname, hvalue⟩ := h.value_mem n v hv
      rw [hnone i hi hname] at hvalue
      cases hvalue

theorem value_eq_none (h : Learned items k) {n : String} (hn : n ∉ items.map (·.name)) :
    k.values[n]? = none :=
  (h.value_eq_none_iff n).mpr fun _ hi hname => absurd (hname ▸ List.mem_map_of_mem hi) hn

theorem value_eq (h : Learned items k) (hc : Coherent items) {i : Item} (hi : i ∈ items) :
    k.values[i.name]? = i.value := by
  cases hv : k.values[i.name]? with
  | none => exact ((h.value_eq_none_iff i.name).mp hv i hi rfl).symm
  | some v =>
    obtain ⟨j, hj, hname, hvalue⟩ := h.value_mem i.name v hv
    rw [← (hc j hj i hi hname).1, hvalue]

theorem size_eq (h : Learned items k) : k.pending.size = waiting items fun n => k.values[n]? := by
  have hnodup : k.pending.toList.Nodup := by
    simpa [List.Nodup] using Std.HashSet.distinct_toList (m := k.pending)
  have hperm : k.pending.toList.Perm
      ((items.map (·.name)).dedup.filter fun n => (k.values[n]?).isNone) := by
    refine (List.perm_ext_iff_of_nodup hnodup ((List.nodup_dedup _).filter _)).mpr fun n => ?_
    rw [Std.HashSet.mem_toList, h.mem_pending, List.mem_filter, List.mem_dedup, Option.isNone_iff_eq_none]
  rw [waiting, List.countP_eq_length_filter, ← hperm.length_eq, Std.HashSet.length_toList]

theorem pending_eq_zero_iff (h : Learned items k) : k.pending.size = 0 ↔
    ∀ i ∈ items, ∃ j ∈ items, j.name = i.name ∧ j.value ≠ none := by
  rw [h.size_eq, waiting, List.countP_eq_zero]
  simp only [List.mem_dedup, List.forall_mem_map, Option.isNone_iff_eq_none, h.value_eq_none_iff]
  refine forall₂_congr fun i _ => ?_
  push Not
  rfl

end Learned

theorem Learned.context_eq {items : List Item} {k : Knowledge} (h : Learned items k)
    (target : String → CastTarget) :
    k.context target = contextOf target items fun n => k.values[n]? := by
  refine EvalContext.mk.injEq .. ▸ ⟨?_, rfl⟩
  funext n
  unfold Knowledge.lookup
  cases hv : k.values[n]? with
  | some v => simp only [hv]
  | none => simp only [Std.HashSet.contains_iff_mem, h.mem_pending, hv, and_true]

namespace Store

theorem flatMap_enumerations {β : Type} (s : Store) (f : Enumeration → List β) :
    s.enumerations.flatMap (fun x => f x.2) =
      s.typedefs.toList.flatMap (fun d => d.target.enumerations.flatMap f) ++
        s.definitions.toList.flatMap fun d => d.enumerations.flatMap f := by
  simp only [enumerations, List.flatMap_append, List.flatMap_assoc, List.flatMap_map]

theorem items_eq_enumerations (s : Store) :
    s.items = s.constants.toList.map Constant.item ++ s.enumerations.flatMap (·.2.items) :=
  congrArg (s.constants.toList.map Constant.item ++ ·) (s.flatMap_enumerations Enumeration.items).symm

theorem knowledge_eq (s : Store) :
    s.knowledge = s.items.foldl (fun k i => k.learn i.name i.value) .nothing := by
  have hmembers : ∀ (ms : List Enumerator) (before : Option String) (k : Knowledge),
      (Item.ofMembers before ms).foldl (fun k i => k.learn i.name i.value) k =
        ms.foldl (fun k m => k.learn m.name m.value) k := by
    intro ms
    induction ms with
    | nil => exact fun _ _ => rfl
    | cons m rest ih => exact fun _ _ => ih (some m.name) _
  rw [items_eq_enumerations, List.foldl_append, List.foldl_map, List.foldl_flatMap]
  simp only [Enumeration.items, hmembers]
  rfl

theorem learned_knowledge (s : Store) : Learned s.items s.knowledge := by
  rw [knowledge_eq]
  exact learned_foldl s.items

end Store

end HeaderBinding
