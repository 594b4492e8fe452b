import HeaderBinding.Proofs.Native.Traverse
import HeaderBinding.Proofs.Resolve.Assign

namespace HeaderBinding

namespace Progress

def valueOf (p : Progress) : Values :=
  fun name => p.known.values[name]?

variable {p : Progress}

theorem valueOf_succeed (p : Progress) (name : String) (v : TypedLiteral) (n : String) :
    (p.succeed name v).valueOf n = if name = n then some v else p.valueOf n := by
  simp only [valueOf, succeed, Knowledge.define, Std.HashMap.getElem?_insert, beq_iff_eq]

@[simp] theorem known_fail (p : Progress) (name : String) (e : EvalError) :
    (p.fail name e).known = p.known := by
  unfold fail
  split <;> rfl

@[simp] theorem evaluated_fail (p : Progress) (name : String) (e : EvalError) :
    (p.fail name e).evaluated = p.evaluated := by
  unfold fail
  split <;> rfl

end Progress

def Item.evaluateAfter (ctx : EvalContext) (before : Option TypedLiteral) (i : Item) :
    Except EvalError TypedLiteral :=
  match i.rule, before with
  | .written expr, _ => evaluateText ctx expr
  | .first, _ => .ok ⟨.int 0, .int32⟩
  | .next _, some v => v.successor
  | .next _, none => .error (.pendingIdentifier i.name)

section

variable (target : String → CastTarget)

def evaluateItem (before : Option TypedLiteral) (i : Item) : StateM Progress Item := do
  let v ← Progress.attempt i.name i.value fun k => i.evaluateAfter (k.context target) before
  return { i with value := v }

def sweepItems (before : Option TypedLiteral) : List Item → StateM Progress (List Item)
  | [] => pure []
  | i :: rest => do
    let i ← evaluateItem target before i
    return i :: (← sweepItems i.value rest)

end

theorem sweepItems_cons {target : String → CastTarget} {before v : Option TypedLiteral} {i : Item} {p q : Progress}
    (h : Progress.attempt i.name i.value (fun k => i.evaluateAfter (k.context target) before) p = (v, q))
    (rest : List Item) :
    sweepItems target before (i :: rest) p =
      ({ i with value := v } :: (sweepItems target v rest q).1, (sweepItems target v rest q).2) := by
  change (match Progress.attempt i.name i.value (fun k => i.evaluateAfter (k.context target) before) p with
    | (v, q) => match sweepItems target v rest q with
      | (is, r) => ({ i with value := v } :: is, r)) = _
  rw [h]
  rfl

def SweepsOver (target : String → CastTarget) {α : Type} (items : α → List Item) (step : StateM Progress α)
    (is : List Item) : Prop :=
  ∀ before, items <$> step = sweepItems target before is

namespace SweepsOver

variable {target : String → CastTarget} {α β γ : Type} {is js : List Item}
  {items : α → List Item} {items' : β → List Item} {items'' : γ → List Item}

theorem sweepItems_append (before : Option TypedLiteral) (is : List Item)
    (h : ∀ b b', sweepItems target b js = sweepItems target b' js) :
    sweepItems target before (is ++ js) = do
      let is ← sweepItems target before is
      let js ← sweepItems target none js
      return is ++ js := by
  induction is generalizing before with
  | nil => simp [sweepItems, h before none]
  | cons i rest ih => simp [sweepItems, ih]

theorem seq {step : StateM Progress α} {step' : StateM Progress β} (h : SweepsOver target items step is)
    (h' : SweepsOver target items' step' js) (f : α → β → γ) (hf : ∀ a b, items'' (f a b) = items a ++ items' b) :
    SweepsOver target items'' (do let a ← step; let b ← step'; return f a b) (is ++ js) := by
  intro before
  have hindifferent : ∀ b b', sweepItems target b js = sweepItems target b' js :=
    fun b b' => (h' b).symm.trans (h' b')
  rw [sweepItems_append before is hindifferent, ← h before, ← h' none]
  simp [hf]

theorem map {step : StateM Progress α} (h : SweepsOver target items step is) (f : α → β)
    (hf : ∀ a, items' (f a) = items a) : SweepsOver target items' (do return f (← step)) is := by
  intro before
  rw [← h before]
  simp [hf]

theorem mapM {step : α → StateM Progress β} {is : α → List Item} (as : List α)
    (h : ∀ a, SweepsOver target items' (step a) (is a)) :
    SweepsOver target (List.flatMap items') (as.mapM step) (as.flatMap is) := by
  induction as with
  | nil =>
    intro before
    simp [sweepItems]
  | cons a rest ih =>
    rw [List.mapM_cons, List.flatMap_cons]
    exact (h a).seq ih List.cons fun _ _ => rfl

end SweepsOver

section

variable (target : String → CastTarget)

theorem sweepsOver_constant (c : Constant) :
    SweepsOver target (fun c => [c.item]) (evaluateConstant target c) [c.item] := by
  intro before
  simp [sweepItems, evaluateItem, evaluateConstant, Constant.item, Item.evaluateAfter]

theorem sweepItems_ofMembers (ms : List Enumerator) (before : Option String) (previous : Previous)
    (value : Option TypedLiteral)
    (h : ∀ k m, enumeratorValue target k previous m =
      Item.evaluateAfter (k.context target) value ⟨m.name, .of before m.expr, m.value⟩) :
    Item.ofMembers before <$> evaluateMembers target previous ms =
      sweepItems target value (Item.ofMembers before ms) := by
  induction ms generalizing before previous value with
  | nil => simp [Item.ofMembers, evaluateMembers, sweepItems]
  | cons m rest ih =>
    have hrest : ∀ v : Option TypedLiteral,
        Item.ofMembers (some m.name) <$> evaluateMembers target (.ofValue v) rest =
          sweepItems target v (Item.ofMembers (some m.name) rest) := by
      intro v
      refine ih (some m.name) (.ofValue v) v fun k m' => ?_
      cases hexpr : m'.expr with
      | some expr => simp [enumeratorValue, Item.evaluateAfter, Rule.of, hexpr]
      | none => cases v <;> simp [enumeratorValue, Item.evaluateAfter, Rule.of, Previous.ofValue, hexpr]
    simp only [Item.ofMembers, evaluateMembers, sweepItems, evaluateItem, evaluateEnumerator, h, map_bind,
      map_pure, bind_assoc, pure_bind, ← hrest, bind_map_left]

theorem sweepsOver_enumeration (e : Enumeration) :
    SweepsOver target Enumeration.items (evaluateEnumeration target e) e.items := by
  intro before
  rw [Enumeration.items, ← sweepItems_ofMembers target e.members none .nothing before]
  · simp [evaluateEnumeration, Enumeration.items]
  · intro k m
    cases hexpr : m.expr <;> simp [enumeratorValue, Item.evaluateAfter, Rule.of, hexpr]

theorem sweepsOver_type (t : NativeType) :
    SweepsOver target NativeType.items (t.mapEnumsM (evaluateEnumeration target)) t.items := by
  intro before
  have h := SweepsOver.mapM t.enumerations (sweepsOver_enumeration target) before
  rw [← NativeType.enumerations_mapEnumsM, ← comp_map] at h
  exact h

theorem sweepsOver_typedef (d : Typedef) :
    SweepsOver target (·.target.items)
      (do return { d with target := ← d.target.mapEnumsM (evaluateEnumeration target) }) d.target.items :=
  (sweepsOver_type target d.target).map (fun t => { d with target := t }) fun _ => rfl

theorem sweepsOver_definition (d : Definition) :
    SweepsOver target Definition.items (d.mapEnumsM (evaluateEnumeration target)) d.items := by
  cases d with
  | enumeration e =>
    rw [Definition.items_enumeration]
    exact (sweepsOver_enumeration target e).map Definition.enumeration Definition.items_enumeration
  | record kind body =>
    have hmember : ∀ x : Member NativeType, SweepsOver target (fun x : Member NativeType => x.type.items)
        (do return ({ x with type := ← x.type.mapEnumsM (evaluateEnumeration target) } : Member NativeType))
        x.type.items :=
      fun x => (sweepsOver_type target x.type).map (fun t => { x with type := t }) fun _ => rfl
    have hmembers := SweepsOver.mapM body.members hmember
    rw [Definition.items_record]
    exact hmembers.map (fun ms => Definition.record kind ⟨body.name, ms⟩) fun ms =>
      Definition.items_record kind ⟨body.name, ms⟩

theorem SweepsOver.table {α : Type} {step : α → StateM Progress α} {items : α → List Item}
    {target : String → CastTarget}
    (t : Table α) (h : ∀ a, SweepsOver target items (step a) (items a)) :
    SweepsOver target (fun t : Table α => t.toList.flatMap items) (t.mapM step) (t.toList.flatMap items) :=
  (SweepsOver.mapM t.toList h).map (fun entries => { t with entries := entries.toArray }) fun _ => rfl

theorem map_items_sweep (s : Store) : Store.items <$> sweep target s = sweepItems target none s.items := by
  have hconstants := SweepsOver.table s.constants (sweepsOver_constant target)
  have htypedefs := SweepsOver.table s.typedefs (sweepsOver_typedef target)
  have hdefinitions := SweepsOver.table s.definitions (sweepsOver_definition target)
  have htypes : SweepsOver target (fun x : Table Typedef × Table Definition =>
      x.1.toList.flatMap (·.target.items) ++ x.2.toList.flatMap Definition.items) _ _ :=
    htypedefs.seq hdefinitions Prod.mk fun _ _ => rfl
  have hstore : SweepsOver target Store.items _ _ := hconstants.seq htypes
    (fun constants x => { s with constants := constants, typedefs := x.1, definitions := x.2 })
    fun _ _ => by rw [Store.items, List.map_eq_flatMap]
  rw [Store.items, List.map_eq_flatMap, ← hstore none]
  simp [sweep]

theorem sweep_items (s : Store) (p : Progress) :
    sweepItems target none s.items p = ((sweep target s p).1.items, (sweep target s p).2) :=
  (congrFun (map_items_sweep target s) p).symm

end

def Chained : Option String → List Item → Prop
  | _, [] => True
  | last, i :: rest => (∀ n, i.rule = .next n → last = some n) ∧ Chained (some i.name) rest

namespace Chained

theorem append {is js : List Item} {last : Option String} (h : Chained last is) (h' : ∀ last, Chained last js) :
    Chained last (is ++ js) := by
  induction is generalizing last with
  | nil => exact h' last
  | cons i rest ih => exact ⟨h.1, ih h.2⟩

theorem flatMap {α : Type} {items : α → List Item} {as : List α} (h : ∀ a last, Chained last (items a))
    (last : Option String) : Chained last (as.flatMap items) := by
  induction as generalizing last with
  | nil => trivial
  | cons a rest ih => exact (h a last).append ih

theorem ofMembers (ms : List Enumerator) (before : Option String) : Chained before (Item.ofMembers before ms) := by
  induction ms generalizing before with
  | nil => trivial
  | cons m rest ih =>
    refine ⟨fun n hn => ?_, ih (some m.name)⟩
    cases hexpr : m.expr with
    | some expr =>
      rw [hexpr] at hn
      cases hn
    | none =>
      rw [hexpr] at hn
      cases before with
      | none => cases hn
      | some name =>
        cases hn
        rfl

theorem enumeration (e : Enumeration) (last : Option String) : Chained last e.items := by
  cases hms : e.members with
  | nil =>
    rw [Enumeration.items, hms]
    trivial
  | cons m rest =>
    rw [Enumeration.items, hms]
    refine ⟨fun n hn => ?_, ofMembers rest (some m.name)⟩
    cases hexpr : m.expr <;> rw [hexpr] at hn <;> cases hn

end Chained

theorem Store.chained_items (s : Store) (last : Option String) : Chained last s.items := by
  rw [items, List.map_eq_flatMap]
  refine (Chained.flatMap (fun c last => ?_) last).append fun last => ?_
  · exact ⟨fun _ h => Rule.noConfusion h, trivial⟩
  · refine (Chained.flatMap (fun d => ?_) last).append (Chained.flatMap fun d => ?_)
    · exact Chained.flatMap Chained.enumeration
    · exact Chained.flatMap Chained.enumeration

def unvaluedCount (items : List Item) : Nat :=
  items.countP (·.value.isNone)

theorem Progress.evaluated_attempt (name : String) (value : Option TypedLiteral)
    (evaluate : Knowledge → Except EvalError TypedLiteral) (p : Progress) :
    (attempt name value evaluate p).2.evaluated + (attempt name value evaluate p).1.isNone.toNat =
      p.evaluated + value.isNone.toNat := by
  unfold attempt
  split
  · rfl
  · rename_i hskip
    have hnone : value = none := by
      cases value with
      | none => rfl
      | some v => simp at hskip
    subst hnone
    split
    · simp [succeed]
    · simp

theorem evaluated_sweepItems (target : String → CastTarget) (before : Option TypedLiteral) (items : List Item)
    (p : Progress) :
    (sweepItems target before items p).2.evaluated + unvaluedCount (sweepItems target before items p).1 =
      p.evaluated + unvaluedCount items := by
  induction items generalizing before p with
  | nil => rfl
  | cons i rest ih =>
    have hattempt := Progress.evaluated_attempt i.name i.value (fun k => i.evaluateAfter (k.context target) before) p
    rcases hr : Progress.attempt i.name i.value (fun k => i.evaluateAfter (k.context target) before) p with ⟨v, q⟩
    rw [hr] at hattempt
    have hrest := ih v q
    rw [sweepItems_cons hr]
    simp only [unvaluedCount, List.countP_cons] at hrest ⊢
    cases v <;> cases hvalue : i.value <;> simp [hvalue] at hattempt ⊢ <;> omega

theorem sweeps_idle {target : String → CastTarget} {s : Store} {p : Progress}
    (h : (sweep target s p).2.evaluated = p.evaluated) (limit : Nat) :
    sweeps target (limit + 1) s p = ((sweep target s p).1, (sweep target s p).2, 1) :=
  if_pos h

theorem sweeps_onward {target : String → CastTarget} {s : Store} {p : Progress}
    (h : (sweep target s p).2.evaluated ≠ p.evaluated) (limit : Nat) :
    sweeps target (limit + 1) s p =
      ((sweeps target limit (sweep target s p).1 (sweep target s p).2).1,
        (sweeps target limit (sweep target s p).1 (sweep target s p).2).2.1,
        (sweeps target limit (sweep target s p).1 (sweep target s p).2).2.2 + 1) :=
  if_neg h

theorem sweeps_invariant (target : String → CastTarget) {I : Store → Progress → Prop}
    (hstep : ∀ s p, I s p → I (sweep target s p).1 (sweep target s p).2) (limit : Nat) {s : Store} {p : Progress}
    (h : I s p) : I (sweeps target limit s p).1 (sweeps target limit s p).2.1 := by
  induction limit generalizing s p with
  | zero => exact h
  | succ limit ih =>
    by_cases hidle : (sweep target s p).2.evaluated = p.evaluated
    · rw [sweeps_idle hidle]
      exact hstep s p h
    · rw [sweeps_onward hidle]
      exact ih (hstep s p h)

theorem evaluated_sweeps (target : String → CastTarget) (limit : Nat) (s : Store) (p : Progress) :
    (sweeps target limit s p).2.1.evaluated + unvaluedCount (sweeps target limit s p).1.items =
      p.evaluated + unvaluedCount s.items := by
  refine sweeps_invariant target
    (I := fun t q => q.evaluated + unvaluedCount t.items = p.evaluated + unvaluedCount s.items)
    (fun t q h => ?_) limit rfl
  have hsweep := evaluated_sweepItems target none t.items q
  rw [sweep_items] at hsweep
  exact hsweep.trans h

end HeaderBinding
