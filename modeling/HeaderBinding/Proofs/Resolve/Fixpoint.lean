import HeaderBinding.Proofs.Resolve.Derivation
import HeaderBinding.Proofs.Resolve.Sweep

namespace HeaderBinding

def Item.failure (ctx : EvalContext) (i : Item) : Option EvalError :=
  match i.evaluate ctx with
  | .ok _ => none
  | .error e => if e.isPending then none else some e

theorem Item.failure_of_pending {ctx : EvalContext} {i : Item} {name : String}
    (h : i.evaluate ctx = .error (.pendingIdentifier name)) : i.failure ctx = none := by
  unfold failure
  rw [h]
  rfl

theorem Item.failure_of_error {ctx : EvalContext} {i : Item} {e : EvalError}
    (h : i.evaluate ctx = .error e) (he : e.isPending = false) : i.failure ctx = some e := by
  unfold failure
  rw [h]
  simp [he]

theorem Item.evaluate_bare (ctx : EvalContext) (i : Item) : i.bare.evaluate ctx = i.evaluate ctx := rfl

def Agree (p : Progress) (items : List Item) : Prop :=
  ∀ i ∈ items, i.value = p.valueOf i.name

section

variable (target : String → CastTarget) (rules : List Item)

structure Reached (b : Values) (p : Progress) : Prop where
  context_eq : p.known.context target = contextOf target rules p.valueOf
  derives : Derives target rules b p.valueOf
  failed : ∀ i ∈ rules, ∀ e, p.failures[i.name]? = some e → p.valueOf i.name = none ∧
    e.isPending = false ∧ i.evaluate (contextOf target rules p.valueOf) = .error e

structure Advances (p q : Progress) : Prop where
  derives : Derives target rules p.valueOf q.valueOf
  failures_sub : ∀ n ∈ p.failures, n ∈ q.failures
  evaluated_le : p.evaluated ≤ q.evaluated
  idle : q.evaluated = p.evaluated → q.valueOf = p.valueOf

def Met (p q : Progress) (i : Item) : Prop :=
  ∃ r, Advances target rules p r ∧ Advances target rules r q ∧ i.value = r.valueOf i.name ∧
    (i.value = none → i.name ∈ r.failures ∨
      ∃ n, i.evaluate (contextOf target rules r.valueOf) = .error (.pendingIdentifier n))

structure Tracked (b : Values) (items : List Item) (p : Progress) : Prop where
  reached : Reached target rules b p
  bare_mem : ∀ i ∈ items, i.bare ∈ rules
  held : ∀ i ∈ items, ∀ v, i.value = some v → p.valueOf i.name = some v
  unheld : ∀ i ∈ items, i.value = none → b i.name = none

structure Swept (b : Values) (items : List Item) (p : Progress) (items' : List Item) (q : Progress) : Prop where
  bare_eq : items'.map Item.bare = items.map Item.bare
  reached : Reached target rules b q
  advances : Advances target rules p q
  met : ∀ i ∈ items', Met target rules p q i
  kept : ∀ n, n ∉ items.map (·.name) → q.valueOf n = p.valueOf n
  agree : (items.map (·.name)).Nodup → Agree q items'

structure Exhausted (p : Progress) : Prop where
  closed : Closed target rules p.valueOf
  failures_eq : ∀ i ∈ rules, p.valueOf i.name = none →
    p.failures[i.name]? = i.failure (contextOf target rules p.valueOf)

end

variable {target : String → CastTarget} {rules items items' : List Item} {b : Values}
  {p q r : Progress} {i : Item}

namespace Advances

theorem refl (p : Progress) : Advances target rules p p :=
  ⟨.refl, fun _ h => h, Nat.le_refl _, fun _ => rfl⟩

theorem trans (h : Advances target rules p q) (h' : Advances target rules q r) : Advances target rules p r where
  derives := h.derives.trans h'.derives
  failures_sub n hn := h'.failures_sub n (h.failures_sub n hn)
  evaluated_le := Nat.le_trans h.evaluated_le h'.evaluated_le
  idle heq := by
    have hle := h.evaluated_le
    have hle' := h'.evaluated_le
    rw [h'.idle (by omega), h.idle (by omega)]

theorem waiting_lt (h : Advances target rules p q) (hne : q.valueOf ≠ p.valueOf) :
    waiting rules q.valueOf < waiting rules p.valueOf := by
  rcases h.derives.eq_or_first with heq | ⟨i, hi, v, hnone, -, hgrows⟩
  · exact absurd heq hne
  · refine h.derives.grows.waiting_lt hnone ?_
    rw [hgrows.eq_some (Values.set_self p.valueOf i.name v)]
    nofun

end Advances

theorem Item.evaluateAfter_eq {before : Option TypedLiteral}
    (h : ∀ n, i.rule = .next n → before = p.valueOf n) :
    i.evaluateAfter (p.known.context target) before = i.evaluate (p.known.context target) := by
  unfold evaluateAfter evaluate
  cases hrule : i.rule with
  | written expr => rfl
  | first => rfl
  | next n =>
    obtain rfl := h n hrule
    simp only [Progress.valueOf, Knowledge.context, Knowledge.lookup]
    cases p.known.values[n]? with
    | some v => rfl
    | none => cases p.known.pending.contains n <;> rfl

theorem Progress.attempt_cases (name : String) (value : Option TypedLiteral)
    (evaluate : Knowledge → Except EvalError TypedLiteral) (p : Progress) :
    ((value ≠ none ∨ name ∈ p.failures) ∧ attempt name value evaluate p = (value, p)) ∨
    (value = none ∧ name ∉ p.failures ∧
      ((∃ v, evaluate p.known = .ok v ∧ attempt name value evaluate p = (some v, p.succeed name v)) ∨
        (∃ n, evaluate p.known = .error (.pendingIdentifier n) ∧ attempt name value evaluate p = (none, p)) ∨
        (∃ e, evaluate p.known = .error e ∧ e.isPending = false ∧
          attempt name value evaluate p = (none, { p with failures := p.failures.insert name e })))) := by
  unfold attempt
  by_cases hskip : (value.isSome || p.failures.contains name) = true
  · rw [if_pos hskip]
    refine .inl ⟨?_, rfl⟩
    simpa [Option.isSome_iff_ne_none] using hskip
  · rw [if_neg hskip]
    simp only [Bool.or_eq_true, not_or, Bool.not_eq_true, Option.isSome_eq_false_iff,
      Option.isNone_iff_eq_none] at hskip
    refine .inr ⟨hskip.1, by simpa using hskip.2, ?_⟩
    cases hev : evaluate p.known with
    | ok v => exact .inl ⟨v, rfl, rfl⟩
    | error e =>
      right
      cases e with
      | pendingIdentifier n => exact .inl ⟨n, rfl, rfl⟩
      | _ => exact .inr ⟨_, rfl, rfl, rfl⟩

theorem Progress.context_succeed (h : p.known.context target = contextOf target rules p.valueOf)
    (name : String) (v : TypedLiteral) :
    (p.succeed name v).known.context target =
      contextOf target rules (p.succeed name v).valueOf := by
  have hvalues : (p.succeed name v).valueOf = p.valueOf.set name v := by
    funext n
    exact valueOf_succeed p name v n
  have hlookup : ∀ n, p.known.lookup n = (contextOf target rules p.valueOf).value n := by
    rw [← h]
    exact fun _ => rfl
  rw [hvalues]
  refine EvalContext.mk.injEq .. ▸ ⟨?_, rfl⟩
  funext n
  by_cases hn : name = n
  · subst hn
    simp [Knowledge.lookup, succeed, Knowledge.define, Values.set_self]
  · have := hlookup n
    simp only [Knowledge.lookup, contextOf] at this
    simp only [Knowledge.lookup, succeed, Knowledge.define, Values.set_of_ne hn,
      Std.HashMap.getElem?_insert, Std.HashSet.contains_erase, beq_iff_eq, if_neg hn]
    simpa [hn] using this

namespace Reached

theorem derives_set (hc : Coherent rules) (h : Reached target rules b p) (hi : i ∈ rules)
    (hb : b i.name = none) {v : TypedLiteral} (hv : i.evaluate (contextOf target rules p.valueOf) = .ok v) :
    Derives target rules p.valueOf (p.valueOf.set i.name v) := by
  cases hvalue : p.valueOf i.name with
  | none => exact Derives.refl.step hi hvalue hv
  | some w =>
    have hset : p.valueOf.set i.name v = p.valueOf := by
      rcases h.derives.justified hvalue with hbase | ⟨j, hj, hji, hw⟩
      · rw [hb] at hbase
        cases hbase
      · rw [hc.evaluate_eq hj hi hji, hv] at hw
        cases hw
        funext n
        by_cases hn : i.name = n
        · subst hn
          rw [Values.set_self, hvalue]
        · exact Values.set_of_ne hn
    rw [hset]
    exact .refl

theorem succeed (hc : Coherent rules) (h : Reached target rules b p) (hi : i ∈ rules)
    (hb : b i.name = none) (hnot : i.name ∉ p.failures) {v : TypedLiteral}
    (hv : i.evaluate (contextOf target rules p.valueOf) = .ok v) :
    Reached target rules b (p.succeed i.name v) ∧ Advances target rules p (p.succeed i.name v) := by
  have hvalues : (p.succeed i.name v).valueOf = p.valueOf.set i.name v := by
    funext n
    exact Progress.valueOf_succeed p i.name v n
  have hderives := h.derives_set hc hi hb hv
  constructor
  · refine ⟨Progress.context_succeed h.context_eq i.name v, ?_, ?_⟩
    · rw [hvalues]
      exact h.derives.trans hderives
    · intro j hj e hje
      obtain ⟨hjnone, hpending, hjev⟩ := h.failed j hj e hje
      have hne : i.name ≠ j.name := by
        intro hname
        refine hnot (hname ▸ Std.HashMap.mem_iff_isSome_getElem?.mpr ?_)
        exact hje ▸ rfl
      rw [hvalues, Values.set_of_ne hne]
      refine ⟨hjnone, hpending, ?_⟩
      rw [hderives.grows.evaluate_eq (by rw [hjev]; exact settled_error hpending), hjev]
  · refine ⟨hvalues ▸ hderives, fun _ hn => hn, Nat.le_succ _, fun heq => ?_⟩
    exact absurd heq (Nat.succ_ne_self _)

theorem fail (hc : Coherent rules) (h : Reached target rules b p) (hi : i ∈ rules)
    (hb : b i.name = none) {e : EvalError} (he : e.isPending = false)
    (hev : i.evaluate (contextOf target rules p.valueOf) = .error e) :
    p.valueOf i.name = none ∧ Reached target rules b { p with failures := p.failures.insert i.name e } ∧
      Advances target rules p { p with failures := p.failures.insert i.name e } := by
  have hnone : p.valueOf i.name = none := by
    cases hvalue : p.valueOf i.name with
    | none => rfl
    | some w =>
      rcases h.derives.justified hvalue with hbase | ⟨j, hj, hji, hw⟩
      · rw [hb] at hbase
        cases hbase
      · rw [hc.evaluate_eq hj hi hji, hev] at hw
        cases hw
  refine ⟨hnone, ⟨h.context_eq, h.derives, ?_⟩, .refl, fun _ hn => Std.HashMap.mem_insert.mpr (.inr hn),
    Nat.le_refl _, fun _ => rfl⟩
  intro j hj e' hje
  rw [Std.HashMap.getElem?_insert] at hje
  by_cases hname : i.name = j.name
  · rw [if_pos (by simpa using hname)] at hje
    obtain rfl := Option.some.inj hje
    exact ⟨hname ▸ hnone, he, (hc.evaluate_eq hj hi hname.symm _).trans hev⟩
  · rw [if_neg (by simpa using hname)] at hje
    exact h.failed j hj e' hje

end Reached

theorem Tracked.attempt (hc : Coherent rules) (h : Tracked target rules b [i] p)
    (evaluate : Knowledge → Except EvalError TypedLiteral)
    (hevaluate : evaluate p.known = i.evaluate (p.known.context target)) :
    ∃ q, Progress.attempt i.name i.value evaluate p = (q.valueOf i.name, q) ∧
      Reached target rules b q ∧ Advances target rules p q ∧
      (∀ n, i.name ≠ n → q.valueOf n = p.valueOf n) ∧
      (q.valueOf i.name = none → i.name ∈ q.failures ∨
        ∃ n, i.evaluate (contextOf target rules q.valueOf) = .error (.pendingIdentifier n)) := by
  obtain ⟨hreached, hmem, hheld, hunheld⟩ := h
  simp only [List.forall_mem_singleton] at hmem hheld hunheld
  rw [hreached.context_eq] at hevaluate
  rcases Progress.attempt_cases i.name i.value evaluate p with
    ⟨hskip, heq⟩ | ⟨hnone, hnot, ⟨v, hv, heq⟩ | ⟨n, hn, heq⟩ | ⟨e, he, hp, heq⟩⟩
  · have hvalue : i.value = p.valueOf i.name := by
      cases hvalue : i.value with
      | some v => exact (hheld v hvalue).symm
      | none =>
        rcases hskip with hsome | hfailed
        · exact absurd hvalue hsome
        · obtain ⟨e, he⟩ := Option.isSome_iff_exists.mp (Std.HashMap.mem_iff_isSome_getElem?.mp hfailed)
          exact (hreached.failed i.bare hmem e he).1.symm
    refine ⟨p, hvalue ▸ heq, hreached, .refl p, fun _ _ => rfl, fun hnone => .inl ?_⟩
    rcases hskip with hsome | hfailed
    · exact absurd (hvalue.trans hnone) hsome
    · exact hfailed
  · obtain ⟨hq, hadvances⟩ := hreached.succeed hc hmem (hunheld hnone) hnot (hevaluate.symm.trans hv)
    have hvalue : (p.succeed i.name v).valueOf i.name = some v :=
      (Progress.valueOf_succeed p i.name v i.name).trans (if_pos rfl)
    refine ⟨p.succeed i.name v, hvalue ▸ heq, hq, hadvances, fun n hne => ?_, fun hnone' => ?_⟩
    · rw [Progress.valueOf_succeed, if_neg hne]
    · rw [hvalue] at hnone'
      cases hnone'
  · have hpending := hevaluate.symm.trans hn
    have hunknown : p.valueOf i.name = none := by
      cases hvalue : p.valueOf i.name with
      | none => rfl
      | some w =>
        rcases hreached.derives.justified hvalue with hbase | ⟨j, hj, hji, hw⟩
        · rw [hunheld hnone] at hbase
          cases hbase
        · rw [hc.evaluate_eq hj hmem hji, Item.evaluate_bare, hpending] at hw
          cases hw
    exact ⟨p, hunknown ▸ heq, hreached, .refl p, fun _ _ => rfl, fun _ => .inr ⟨n, hpending⟩⟩
  · obtain ⟨hunknown, hq, hadvances⟩ := hreached.fail hc hmem (hunheld hnone) hp (hevaluate.symm.trans he)
    refine ⟨{ p with failures := p.failures.insert i.name e }, ?_, hq, hadvances, fun _ _ => rfl, fun _ => .inl ?_⟩
    · exact heq.trans (congrArg (·, { p with failures := p.failures.insert i.name e }) hunknown.symm)
    · exact Std.HashMap.mem_insert_self

theorem Met.advances (h : Met target rules q r i) (hpq : Advances target rules p q) : Met target rules p r i := by
  obtain ⟨m, hqm, hmr, hvalue⟩ := h
  exact ⟨m, hpq.trans hqm, hmr, hvalue⟩

theorem Tracked.cons {rest : List Item} (h : Tracked target rules b (i :: rest) p) (hq : Reached target rules b q)
    (hadvances : Advances target rules p q) : Tracked target rules b [i] p ∧ Tracked target rules b rest q := by
  obtain ⟨hreached, hmem, hheld, hunheld⟩ := h
  simp only [List.forall_mem_cons] at hmem hheld hunheld
  constructor
  · refine ⟨hreached, ?_, ?_, ?_⟩ <;> simp only [List.forall_mem_singleton]
    · exact hmem.1
    · exact hheld.1
    · exact hunheld.1
  · exact ⟨hq, hmem.2, fun j hj v hv => hadvances.derives.grows.eq_some (hheld.2 j hj v hv), hunheld.2⟩

theorem Tracked.sweepItems (hc : Coherent rules) {last : Option String} (before : Option TypedLiteral)
    (h : Tracked target rules b items p) (hchained : Chained last items)
    (hlast : ∀ n, last = some n → before = p.valueOf n) :
    Swept target rules b items p (sweepItems target before items p).1 (sweepItems target before items p).2 := by
  induction items generalizing p last before with
  | nil => exact ⟨rfl, h.reached, .refl p, nofun, fun _ _ => rfl, fun _ => nofun⟩
  | cons i rest ih =>
    have hsingle : Tracked target rules b [i] p := (h.cons h.reached (.refl p)).1
    obtain ⟨q, heq, hq, hadvances, hother, hnone⟩ := hsingle.attempt hc
      (fun k => i.evaluateAfter (k.context target) before)
      (Item.evaluateAfter_eq fun n hn => hlast n (hchained.1 n hn))
    have hrest := ih (q.valueOf i.name) (h.cons hq hadvances).2 hchained.2
      fun n hn => congrArg q.valueOf (Option.some.inj hn)
    rw [sweepItems_cons heq]
    refine ⟨?_, hrest.reached, hadvances.trans hrest.advances, ?_, ?_, ?_⟩
    · rw [List.map_cons, List.map_cons, hrest.bare_eq]
      rfl
    · refine List.forall_mem_cons.mpr ⟨⟨q, hadvances, hrest.advances, rfl, hnone⟩, ?_⟩
      exact fun j hj => (hrest.met j hj).advances hadvances
    · intro n hn
      simp only [List.map_cons, List.mem_cons, not_or] at hn
      rw [hrest.kept n hn.2, hother n (Ne.symm hn.1)]
    · intro hd
      obtain ⟨hnot, hd⟩ := List.nodup_cons.mp hd
      exact List.forall_mem_cons.mpr ⟨(hrest.kept i.name hnot).symm, hrest.agree hd⟩

namespace Swept

theorem tracked (h : Swept target rules b items p items' q) (hs : Tracked target rules b items p) :
    Tracked target rules b items' q where
  reached := h.reached
  bare_mem i hi := by
    have hmem : i.bare ∈ items.map Item.bare := h.bare_eq ▸ List.mem_map_of_mem hi
    obtain ⟨j, hj, heq⟩ := List.mem_map.mp hmem
    rw [← heq]
    exact hs.bare_mem j hj
  held i hi v hv := by
    obtain ⟨r, -, hrq, hvalue, -⟩ := h.met i hi
    exact hrq.derives.grows.eq_some (hvalue.symm.trans hv)
  unheld i hi hnone := by
    obtain ⟨r, hpr, -, hvalue, -⟩ := h.met i hi
    have hgrows := (hs.reached.derives.trans hpr.derives).grows
    cases hb : b i.name with
    | none => rfl
    | some v =>
      rw [hvalue, hgrows.eq_some hb] at hnone
      cases hnone

theorem agree_or (hc : Coherent rules) (h : Swept target rules b items p items' q)
    (hs : Tracked target rules b items p) (hi : i ∈ items') :
    i.value = q.valueOf i.name ∨ waiting rules q.valueOf + 2 ≤ waiting rules p.valueOf := by
  have htracked := h.tracked hs
  obtain ⟨r, hpr, hrq, hvalue, hnone⟩ := h.met i hi
  cases hi' : i.value with
  | some v => exact .inl (htracked.held i hi v hi').symm
  | none =>
    cases hq : q.valueOf i.name with
    | none => exact .inl rfl
    | some w =>
      right
      have hpending : ∃ n, i.evaluate (contextOf target rules r.valueOf) = .error (.pendingIdentifier n) := by
        rcases hnone hi' with hfailed | hpending
        · obtain ⟨e, he⟩ := Option.isSome_iff_exists.mp
            (Std.HashMap.mem_iff_isSome_getElem?.mp (hrq.failures_sub _ hfailed))
          have := (h.reached.failed i.bare (htracked.bare_mem i hi) e he).1
          rw [show q.valueOf i.bare.name = some w from hq] at this
          cases this
        · exact hpending
      obtain ⟨n, hn⟩ := hpending
      rcases hrq.derives.eq_or_first with heq | ⟨j, hj, v, hjnone, hjv, hgrows⟩
      · rw [hvalue, ← heq, hq] at hi'
        cases hi'
      · have hne : j.name ≠ i.name := by
          intro hname
          rw [hc.evaluate_eq hj (htracked.bare_mem i hi) hname, Item.evaluate_bare, hn] at hjv
          cases hjv
        have hset := (grows_set hj hjnone v).waiting_lt hjnone
          (show (r.valueOf.set j.name v) j.name ≠ none by rw [Values.set_self]; nofun)
        have hlast := hgrows.waiting_lt (n := i.name) (by rw [Values.set_of_ne hne, ← hvalue, hi'])
          (by rw [hq]; nofun)
        have hle := hpr.derives.grows.waiting_le
        omega

theorem exhausted (h : Swept target (items.map Item.bare) b items p items' q) (hstill : q.valueOf = p.valueOf) :
    Agree q items' ∧ Exhausted target (items.map Item.bare) q := by
  have hmet : ∀ i ∈ items', i.value = q.valueOf i.name ∧ (i.value = none → i.name ∈ q.failures ∨
      ∃ n, i.evaluate (contextOf target (items.map Item.bare) q.valueOf) = .error (.pendingIdentifier n)) := by
    intro i hi
    obtain ⟨r, hpr, hrq, hvalue, hnone⟩ := h.met i hi
    have hr : r.valueOf = q.valueOf := by
      refine hrq.derives.grows.antisymm ?_
      rw [hstill]
      exact hpr.derives.grows
    rw [← hr]
    exact ⟨hvalue, fun hi' => (hnone hi').imp_left (hrq.failures_sub _)⟩
  -- What is without a value has failed for good, or it waited for a name when it was met, and nothing has changed
  -- since.
  have hcase : ∀ i ∈ items.map Item.bare, q.valueOf i.name = none →
      (∃ e, e.isPending = false ∧ q.failures[i.name]? = some e ∧
        i.evaluate (contextOf target (items.map Item.bare) q.valueOf) = .error e) ∨
      (q.failures[i.name]? = none ∧ ∃ n,
        i.evaluate (contextOf target (items.map Item.bare) q.valueOf) = .error (.pendingIdentifier n)) := by
    intro i hi hnone
    cases hf : q.failures[i.name]? with
    | some e =>
      obtain ⟨-, hp, he⟩ := h.reached.failed i hi e hf
      exact .inl ⟨e, hp, rfl, he⟩
    | none =>
      rw [← h.bare_eq] at hi
      obtain ⟨j, hj, rfl⟩ := List.mem_map.mp hi
      obtain ⟨hvalue, hwaits⟩ := hmet j hj
      refine .inr ⟨rfl, (hwaits (hvalue.trans hnone)).resolve_left fun hmem => ?_⟩
      rw [Std.HashMap.mem_iff_isSome_getElem?] at hmem
      rw [show q.failures[j.name]? = none from hf] at hmem
      cases hmem
  refine ⟨fun i hi => (hmet i hi).1, ?_, ?_⟩
  · intro i hi hnone v hv
    rcases hcase i hi hnone with ⟨e, -, -, he⟩ | ⟨-, n, he⟩
    · rw [he] at hv
      cases hv
    · rw [he] at hv
      cases hv
  · intro i hi hnone
    rcases hcase i hi hnone with ⟨e, hp, hf, he⟩ | ⟨hf, n, he⟩
    · rw [hf, Item.failure_of_error he hp]
    · rw [hf, Item.failure_of_pending he]

end Swept

theorem exhausted_of_waiting_eq_zero (h : waiting rules p.valueOf = 0) : Exhausted target rules p := by
  have hsome : ∀ i ∈ rules, p.valueOf i.name ≠ none := by
    intro i hi hnone
    have := List.countP_eq_zero.mp h i.name (List.mem_dedup.mpr (List.mem_map_of_mem hi))
    simp [hnone] at this
  exact ⟨fun i hi hnone => absurd hnone (hsome i hi), fun i hi hnone => absurd hnone (hsome i hi)⟩

end HeaderBinding
