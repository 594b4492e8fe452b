import HeaderBinding.Proofs.Graph.Canonical
import HeaderBinding.Proofs.Resolve.Fixpoint
import HeaderBinding.Proofs.Resolve.Settle
import HeaderBinding.Proofs.Store.FastLoad

namespace HeaderBinding

namespace Store

def rules (s : Store) : List Item :=
  s.items.map Item.bare

def valueOf (s : Store) : Values :=
  fun n => s.knowledge.values[n]?

variable {s t : Store} {f g : Values} {target : String → CastTarget}

theorem rules_assign (f : Values) (s : Store) : (s.assign f).rules = s.rules := by
  simp only [rules, items_assign, List.map_map]
  rfl

theorem names_rules (s : Store) : s.rules.map (·.name) = s.items.map (·.name) := by
  simp only [rules, List.map_map]
  rfl

theorem names_assign (f : Values) (s : Store) :
    (s.assign f).items.map (·.name) = s.items.map (·.name) := by
  rw [← names_rules, rules_assign, names_rules]

theorem contextOf_rules (target : String → CastTarget) (s : Store) (f : Values) :
    contextOf target s.rules f = contextOf target s.items f := by
  simp only [contextOf, names_rules]

theorem coherent_rules (hc : Coherent s.items) : Coherent s.rules :=
  hc.bare

theorem value_eq_of_coherent (hc : Coherent s.items) {i : Item} (hi : i ∈ s.items) : s.valueOf i.name = i.value :=
  (learned_knowledge s).value_eq hc hi

theorem value_eq (hd : (s.items.map (·.name)).Nodup) {i : Item} (hi : i ∈ s.items) : s.valueOf i.name = i.value :=
  value_eq_of_coherent (coherent_of_nodup hd) hi

theorem context_eq (target : String → CastTarget) (s : Store) :
    s.knowledge.context target = contextOf target s.rules s.valueOf := by
  rw [contextOf_rules]
  exact (learned_knowledge s).context_eq target

theorem coherent_assign (f : Values) (hc : Coherent s.items) : Coherent (s.assign f).items := by
  rw [items_assign]
  exact hc.assign f

theorem valueOf_assign (hc : Coherent s.items) (h : Grows s.rules s.valueOf f) :
    (s.assign f).valueOf = f := by
  funext n
  by_cases hn : n ∈ s.items.map (·.name)
  · obtain ⟨i, hi, rfl⟩ := List.mem_map.mp hn
    have hmem : i.assign f ∈ (s.assign f).items := by
      rw [items_assign]
      exact List.mem_map_of_mem hi
    exact value_eq_of_coherent (coherent_assign f hc) hmem
  · have hnone : s.valueOf n = none := (learned_knowledge s).value_eq_none hn
    have hnone' : (s.assign f).valueOf n = none :=
      (learned_knowledge (s.assign f)).value_eq_none (by rwa [names_assign])
    rcases h n with heq | ⟨-, hmem⟩
    · rw [hnone', ← heq, hnone]
    · rw [names_rules] at hmem
      exact absurd hmem hn

def start (s : Store) : Progress :=
  ⟨s.knowledge, ∅, 0⟩

theorem agree_start (hc : Coherent s.items) : Agree s.start s.items :=
  fun _ hi => (value_eq_of_coherent hc hi).symm

theorem waiting_start (s : Store) : waiting s.rules s.start.valueOf = s.knowledge.pending.size := by
  rw [(learned_knowledge s).size_eq, waiting, waiting, names_rules]
  rfl

theorem tracked_start (hc : Coherent s.items) (target : String → CastTarget) :
    Tracked target s.rules s.valueOf s.items s.start where
  reached := ⟨context_eq target s, .refl, fun _ _ _ he => by simp [start] at he⟩
  bare_mem _ hi := List.mem_map_of_mem hi
  held _ hi _ hv := (value_eq_of_coherent hc hi).trans hv
  unheld _ hi hnone := (value_eq_of_coherent hc hi).trans hnone

section

variable {rules : List Item} {b : Values} {p : Progress}

theorem swept_sweep (hc : Coherent rules) (h : Tracked target rules b s.items p) :
    Swept target rules b s.items p (sweep target s p).1.items (sweep target s p).2 := by
  have hswept := h.sweepItems hc none (s.chained_items none) nofun
  rwa [sweep_items] at hswept

theorem tracked_sweeps (hc : Coherent rules) (h : Tracked target rules b s.items p) (limit : Nat) :
    Tracked target rules b (sweeps target limit s p).1.items (sweeps target limit s p).2.1 :=
  sweeps_invariant target (I := fun t q => Tracked target rules b t.items q)
    (fun _ _ ht => (swept_sweep hc ht).tracked ht) limit h

theorem exhausted_sweeps (limit : Nat) (hc : Coherent s.rules) (h : Tracked target s.rules b s.items p)
    (hlimit : (Agree p s.items ∧ Exhausted target s.rules p) ∨
      (Agree p s.items ∧ waiting s.rules p.valueOf ≤ limit) ∨ waiting s.rules p.valueOf < limit) :
    Agree (sweeps target limit s p).2.1 (sweeps target limit s p).1.items ∧
      Exhausted target s.rules (sweeps target limit s p).2.1 := by
  -- By induction on how many sweeps may be made: each gives values to names that wait, and one more is needed where
  -- an item stays behind what is known of it.
  induction limit generalizing s p with
  | zero =>
    rcases hlimit with hdone | ⟨hagree, hle⟩ | hlt
    · exact hdone
    · exact ⟨hagree, exhausted_of_waiting_eq_zero (Nat.le_zero.mp hle)⟩
    · exact absurd hlt (Nat.not_lt_zero _)
  | succ limit ih =>
    have hswept := swept_sweep hc h
    have hrules : (sweep target s p).1.rules = s.rules := hswept.bare_eq
    by_cases hidle : (sweep target s p).2.evaluated = p.evaluated
    · rw [sweeps_idle hidle]
      exact hswept.exhausted (hswept.advances.idle hidle)
    · rw [sweeps_onward hidle]
      have hrest := ih (s := (sweep target s p).1) (p := (sweep target s p).2)
      rw [hrules] at hrest
      refine hrest hc (hswept.tracked h) ?_
      by_cases hstill : (sweep target s p).2.valueOf = p.valueOf
      · exact .inl (hswept.exhausted hstill)
      · have hlt := hswept.advances.waiting_lt hstill
        have hle : waiting s.rules p.valueOf ≤ limit + 1 := by
          rcases hlimit with ⟨-, hexhausted⟩ | ⟨-, hle⟩ | hlt
          · exact absurd (hswept.advances.derives.eq_of_closed_base hexhausted.closed) hstill
          · exact hle
          · omega
        by_cases hagree : Agree (sweep target s p).2 (sweep target s p).1.items
        · exact .inr (.inl ⟨hagree, by omega⟩)
        · unfold Agree at hagree
          push Not at hagree
          obtain ⟨i, hi, hne⟩ := hagree
          have hbehind := (hswept.agree_or hc h hi).resolve_left hne
          exact .inr (.inr (by omega))

theorem agree_sweeps (hd : (s.items.map (·.name)).Nodup) (h : Tracked target s.rules b s.items p)
    (hagree : Agree p s.items) (limit : Nat) :
    Agree (sweeps target limit s p).2.1 (sweeps target limit s p).1.items := by
  have hc : Coherent s.rules := coherent_rules (coherent_of_nodup hd)
  have hall := sweeps_invariant target
    (I := fun t q => Tracked target s.rules b t.items q ∧ t.rules = s.rules ∧ Agree q t.items)
    (fun t q ⟨ht, hrules, _⟩ => by
      have hswept := swept_sweep hc ht
      refine ⟨hswept.tracked ht, hswept.bare_eq.trans hrules, hswept.agree ?_⟩
      rw [← names_rules, hrules, names_rules]
      exact hd) limit ⟨h, rfl, hagree⟩
  exact hall.2.2

theorem sweeps_eq_assign {limit : Nat}
    (h : Agree (sweeps target limit s p).2.1 (sweeps target limit s p).1.items) :
    (sweeps target limit s p).1 = s.assign (sweeps target limit s p).2.1.valueOf := by
  have hvalues := (revalued_sweeps hereditary_true target limit (s := s) (p := p) (fun _ _ _ _ => trivial)
    fun _ _ _ => trivial).assign_eq
  calc (sweeps target limit s p).1
      = (sweeps target limit s p).1.assign (sweeps target limit s p).2.1.valueOf := (assign_eq_self h).symm
    _ = ((sweeps target limit s p).1.assign noValues).assign (sweeps target limit s p).2.1.valueOf :=
      (assign_assign _ _ _).symm
    _ = (s.assign noValues).assign (sweeps target limit s p).2.1.valueOf := by rw [hvalues]
    _ = s.assign (sweeps target limit s p).2.1.valueOf := assign_assign _ _ _

end

theorem swept_eq (hd : (s.items.map (·.name)).Nodup) (maxPasses : Option Nat) :
    ∃ p passes, s.swept maxPasses = (s.assign p.valueOf, p, passes) ∧
      Reached s.castTarget s.rules s.valueOf p := by
  have hc := coherent_of_nodup hd
  have hstart := tracked_start hc s.castTarget
  have hagree := agree_sweeps hd hstart (agree_start hc) (max 1 (maxPasses.getD s.knowledge.pending.size))
  refine ⟨(s.swept maxPasses).2.1, (s.swept maxPasses).2.2, ?_, (tracked_sweeps (coherent_rules hc) hstart _).reached⟩
  exact Prod.ext (sweeps_eq_assign hagree) rfl

theorem swept_none_of_coherent (hc : Coherent s.items) :
    ∃ p passes, s.swept none = (s.assign p.valueOf, p, passes) ∧
      Reached s.castTarget s.rules s.valueOf p ∧ Exhausted s.castTarget s.rules p := by
  have hstart := tracked_start hc s.castTarget
  obtain ⟨hagree, hexhausted⟩ := exhausted_sweeps (max 1 s.knowledge.pending.size) (coherent_rules hc) hstart
    (.inr (.inl ⟨agree_start hc, by rw [waiting_start]; exact Nat.le_max_right ..⟩))
  refine ⟨(s.swept none).2.1, (s.swept none).2.2, ?_, (tracked_sweeps (coherent_rules hc) hstart _).reached, hexhausted⟩
  exact Prod.ext (sweeps_eq_assign hagree) rfl

theorem exists_of_mem_unvaluedItems {k : Key} {n : String} (h : (k, n) ∈ s.unvaluedItems) :
    ∃ i ∈ s.items, i.name = n ∧ i.value = none := by
  rcases List.mem_append.mp h with hconstant | hmember
  · obtain ⟨c, hc, heq⟩ := List.mem_map.mp hconstant
    obtain ⟨hmem, hnone⟩ := List.mem_filter.mp hc
    refine ⟨c.item, List.mem_append_left _ (List.mem_map_of_mem hmem), ?_, ?_⟩
    · exact congrArg Prod.snd heq
    · exact Option.isNone_iff_eq_none.mp hnone
  · obtain ⟨⟨k', e⟩, he, hin⟩ := List.mem_flatMap.mp hmember
    obtain ⟨m, hm, heq⟩ := List.mem_map.mp hin
    obtain ⟨hmem, hnone⟩ := List.mem_filter.mp hm
    obtain ⟨i, hi, hname, hvalue⟩ := Item.exists_of_mem hmem none
    refine ⟨i, List.mem_append_right _ ?_, ?_, ?_⟩
    · have hflat := s.flatMap_enumerations Enumeration.items
      change _ = _ ++ s.definitions.toList.flatMap Definition.items at hflat
      exact hflat ▸ List.mem_flatMap.mpr ⟨(k', e), he, hi⟩
    · exact hname.trans (congrArg Prod.snd heq)
    · rw [hvalue]
      exact Option.isNone_iff_eq_none.mp hnone

theorem length_unvaluedItems (s : Store) : s.unvaluedItems.length = unvaluedCount s.items := by
  have hmembers : ∀ (ms : List Enumerator) (before : Option String),
      (ms.filter (·.value.isNone)).length = unvaluedCount (Item.ofMembers before ms) := by
    intro ms
    induction ms with
    | nil => exact fun _ => rfl
    | cons m rest ih =>
      intro before
      have hrest := ih (some m.name)
      unfold unvaluedCount at hrest ⊢
      rw [Item.ofMembers, List.countP_cons, ← hrest]
      cases hvalue : m.value <;> simp [hvalue]
  rw [unvaluedItems, items_eq_enumerations, unvaluedCount, List.length_append, List.countP_append,
    List.length_map, List.countP_map, ← List.countP_eq_length_filter, List.length_flatMap, List.countP_flatMap]
  congr 2
  refine List.map_congr_left fun x _ => ?_
  rw [List.length_map]
  exact hmembers x.2.members none

theorem evaluated_swept (maxPasses : Option Nat) (s : Store) :
    (s.swept maxPasses).2.1.evaluated + (s.swept maxPasses).1.unvaluedItems.length = s.unvaluedItems.length := by
  rw [length_unvaluedItems, length_unvaluedItems, swept, evaluated_sweeps]
  exact Nat.zero_add _

theorem valued_of_unvaluedItems_eq_nil (h : s.unvaluedItems = []) {i : Item} (hi : i ∈ s.items) : i.value ≠ none := by
  intro hnone
  have hcount : unvaluedCount s.items = 0 := by rw [← length_unvaluedItems, h, List.length_nil]
  have := List.countP_eq_zero.mp hcount i hi
  simp [hnone] at this

theorem valuate_eq (hc : Coherent s.items) (maxPasses : Option Nat) :
    (s.valuate maxPasses).1 = (s.swept maxPasses).1 ∧
      (s.valuate maxPasses).2.evaluated = (s.swept maxPasses).2.1.evaluated ∧
      (s.valuate maxPasses).2.unresolved = (s.swept maxPasses).1.unvaluedItems.length ∧
      (s.valuate maxPasses).2.diagnostics = (s.swept maxPasses).1.unvaluedItems.map fun (k, n) =>
        unvalued k n (s.swept maxPasses).2.1.failures[n]? := by
  unfold valuate
  by_cases hzero : s.knowledge.pending.size = 0
  · have hvalued : ∀ i ∈ s.items, i.value ≠ none := by
      intro i hi
      obtain ⟨j, hj, hname, hvalue⟩ := (learned_knowledge s).pending_eq_zero_iff.mp hzero i hi
      rwa [(hc j hj i hi hname).1] at hvalue
    have hnil : s.unvaluedItems = [] := by
      rw [← List.length_eq_zero_iff, length_unvaluedItems, unvaluedCount, List.countP_eq_zero]
      intro i hi
      simpa using hvalued i hi
    have hcounts := evaluated_swept maxPasses s
    rw [hnil, List.length_nil, Nat.add_eq_zero_iff, List.length_eq_zero_iff] at hcounts
    have htracked := tracked_sweeps (coherent_rules hc) (tracked_start hc s.castTarget)
      (max 1 (maxPasses.getD s.knowledge.pending.size))
    have hagree : Agree (s.swept maxPasses).2.1 (s.swept maxPasses).1.items := by
      intro i hi
      obtain ⟨v, hv⟩ := Option.ne_none_iff_exists'.mp (valued_of_unvaluedItems_eq_nil hcounts.2 hi)
      exact hv.trans (htracked.held i hi v hv).symm
    have hself : (s.swept maxPasses).1 = s := by
      refine (sweeps_eq_assign hagree).trans (assign_eq_self fun i hi => ?_)
      obtain ⟨v, hv⟩ := Option.ne_none_iff_exists'.mp (hvalued i hi)
      exact hv.trans (htracked.reached.derives.grows.eq_some ((value_eq_of_coherent hc hi).trans hv)).symm
    rw [if_pos hzero, hself, hnil]
    exact ⟨rfl, hcounts.1.symm, rfl, rfl⟩
  · rw [if_neg hzero]
    exact ⟨rfl, rfl, rfl, rfl⟩

structure Solution (s : Store) (f : Values) : Prop where
  derives : Derives s.castTarget s.rules s.valueOf f
  closed : Closed s.castTarget s.rules f

theorem Solution.unique (hc : Coherent s.items) (hf : s.Solution f) (hg : s.Solution g) : f = g :=
  hf.derives.eq_of_closed (coherent_rules hc) hg.derives hf.closed hg.closed

def failureOf (s : Store) (f : Values) (i : Item) : Option EvalError :=
  i.failure (contextOf s.castTarget s.rules f)

theorem exists_solution (hc : Coherent s.items) :
    ∃ f, s.Solution f ∧ (s.swept none).1 = s.assign f ∧
      ∀ i ∈ s.rules, f i.name = none → (s.swept none).2.1.failures[i.name]? = s.failureOf f i := by
  obtain ⟨p, passes, heq, hp, h⟩ := swept_none_of_coherent hc
  rw [heq]
  exact ⟨p.valueOf, ⟨hp.derives, h.closed⟩, rfl, h.failures_eq⟩

theorem Solution.store_eq (hc : Coherent s.items) (hf : s.Solution f) :
    (s.valuate none).1 = s.assign f ∧
      ∀ i ∈ s.rules, f i.name = none → (s.swept none).2.1.failures[i.name]? = s.failureOf f i := by
  obtain ⟨g, hg, hstore, hfailures⟩ := exists_solution hc
  obtain rfl := hf.unique hc hg
  exact ⟨(valuate_eq hc none).1.trans hstore, hfailures⟩

theorem swept_none (hd : (s.items.map (·.name)).Nodup) :
    ∃ f, s.Solution f ∧ (s.swept none).1 = s.assign f ∧
      ∀ i ∈ s.rules, f i.name = none → (s.swept none).2.1.failures[i.name]? = s.failureOf f i :=
  exists_solution (coherent_of_nodup hd)

theorem valuate_none (hd : (s.items.map (·.name)).Nodup) (hf : s.Solution f) :
    (s.valuate none).1 = s.assign f ∧
      ∀ i ∈ s.rules, f i.name = none → (s.swept none).2.1.failures[i.name]? = s.failureOf f i :=
  hf.store_eq (coherent_of_nodup hd)

def valuateAll (limits : List (Option Nat)) (s : Store) : Store :=
  limits.foldl (fun s limit => (s.valuate limit).1) s

theorem valuateAll_eq (limits : List (Option Nat)) (hd : (s.items.map (·.name)).Nodup) :
    ∃ f, s.valuateAll limits = s.assign f ∧ Derives s.castTarget s.rules s.valueOf f := by
  induction limits generalizing s with
  | nil =>
    have hself : s.assign s.valueOf = s := assign_eq_self (agree_start (coherent_of_nodup hd))
    exact ⟨s.valueOf, hself.symm, .refl⟩
  | cons limit rest ih =>
    have hc := coherent_of_nodup hd
    obtain ⟨p, passes, heq, hp⟩ := swept_eq hd limit
    have hstep : (s.valuate limit).1 = s.assign p.valueOf := by
      rw [(valuate_eq hc limit).1, heq]
    have hvalues : (s.assign p.valueOf).valueOf = p.valueOf := valueOf_assign hc hp.derives.grows
    have htarget : (s.assign p.valueOf).castTarget = s.castTarget :=
      castTarget_assign (node?_assign p.valueOf s)
    obtain ⟨f, hf, hderives⟩ := ih (s := s.assign p.valueOf) (by rwa [names_assign])
    rw [htarget, rules_assign, hvalues] at hderives
    refine ⟨f, ?_, hp.derives.trans hderives⟩
    rw [assign_assign] at hf
    rw [← hf, ← hstep]
    rfl

theorem Solution.assign (hd : (s.items.map (·.name)).Nodup) (hf : s.Solution f)
    (hg : Derives s.castTarget s.rules s.valueOf g) : (s.assign g).Solution f := by
  have hc := coherent_of_nodup hd
  have hvalues : (s.assign g).valueOf = g := valueOf_assign hc hg.grows
  have htarget : (s.assign g).castTarget = s.castTarget := castTarget_assign (node?_assign g s)
  obtain ⟨h, hh, -⟩ := exists_solution (coherent_assign g hc)
  have hsame : s.Solution h := by
    obtain ⟨hderives, hclosed⟩ := hh
    rw [htarget, rules_assign, hvalues] at hderives
    rw [htarget, rules_assign] at hclosed
    exact ⟨hg.trans hderives, hclosed⟩
  rw [hf.unique hc hsame]
  exact hh

theorem Solution.context_eq (hc : Coherent s.items) (hf : s.Solution f) (target : String → CastTarget) :
    (s.assign f).knowledge.context target = contextOf target s.rules f := by
  rw [Store.context_eq, rules_assign, valueOf_assign hc hf.derives.grows]

theorem Solution.evaluate_eq (hd : (s.items.map (·.name)).Nodup) (hf : s.Solution f) {i : Item}
    (hi : i ∈ s.items) (hnone : i.value = none) {v : TypedLiteral} (hv : f i.name = some v) :
    i.evaluate ((s.assign f).knowledge.context (s.assign f).castTarget) = .ok v := by
  have hc := coherent_of_nodup hd
  rw [castTarget_assign (node?_assign f s), hf.context_eq hc]
  rcases hf.derives.justified hv with hbase | ⟨j, hj, hname, hev⟩
  · rw [value_eq_of_coherent hc hi, hnone] at hbase
    cases hbase
  · rw [← Item.evaluate_bare, ← (coherent_rules hc).evaluate_eq hj (List.mem_map_of_mem hi) hname]
    exact hev

structure Outcome (s : Store) (f : Values) (failure : String → Option EvalError) : Prop where
  store_eq : (s.valuate none).1 = s.assign f
  failures_eq : ∀ i ∈ s.items, f i.name = none →
    (s.swept none).2.1.failures[i.name]? = failure i.name
  diagnostics_eq : (s.valuate none).2.diagnostics =
    (s.assign f).unvaluedItems.map fun (k, n) => unvalued k n (failure n)
  evaluate_eq : ∀ i ∈ s.items, i.value = none → ∀ v, f i.name = some v →
    i.evaluate ((s.valuate none).1.knowledge.context (s.valuate none).1.castTarget) = .ok v

theorem Solution.outcome (hd : (s.items.map (·.name)).Nodup) (hf : s.Solution f)
    {failure : String → Option EvalError}
    (hfailure : ∀ i ∈ s.rules, f i.name = none → failure i.name = s.failureOf f i) :
    s.Outcome f failure := by
  obtain ⟨hstore, hfailures⟩ := valuate_none hd hf
  have hsame : ∀ i ∈ s.items, f i.name = none →
      (s.swept none).2.1.failures[i.name]? = failure i.name := by
    intro i hi hnone
    have hmem : i.bare ∈ s.rules := List.mem_map_of_mem hi
    exact (hfailures i.bare hmem hnone).trans (hfailure i.bare hmem hnone).symm
  refine ⟨hstore, hsame, ?_, ?_⟩
  · obtain ⟨hswept, -, -, hdiagnostics⟩ := valuate_eq (coherent_of_nodup hd) none
    rw [hdiagnostics, ← hswept, hstore]
    refine List.map_congr_left fun ⟨k, n⟩ hmem => ?_
    obtain ⟨j, hj, hname, hnone⟩ := exists_of_mem_unvaluedItems hmem
    rw [items_assign] at hj
    obtain ⟨i, hi, rfl⟩ := List.mem_map.mp hj
    have hi' : i.name = n := hname
    subst hi'
    dsimp only
    rw [hsame i hi hnone]
  · intro i hi hnone v hv
    rw [hstore]
    exact hf.evaluate_eq hd hi hnone hv

def ofConstants (cs : List Constant) : Store :=
  { empty with constants := ⟨cs.toArray, Table.indexOf cs⟩ }

theorem indexed_ofConstants {cs : List Constant} (hd : (cs.map Declaration.name).Nodup) :
    (ofConstants cs).Indexed where
  typedefs := Table.indexed_empty
  definitions := Table.indexed_empty
  constants := Table.indexed_indexOf cs hd
  procedures := Table.indexed_empty

theorem items_ofConstants (cs : List Constant) : (ofConstants cs).items = cs.map Constant.item := by
  simp [items, ofConstants, Table.toList, empty, Table.empty]

end Store

end HeaderBinding
