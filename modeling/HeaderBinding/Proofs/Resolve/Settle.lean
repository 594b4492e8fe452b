import HeaderBinding.Proofs.Expr.Yields
import HeaderBinding.Proofs.Resolve.Assign
import HeaderBinding.Proofs.Resolve.Ensures
import HeaderBinding.Proofs.Resolve.Knowledge
import HeaderBinding.Proofs.Resolve.Sweep

namespace HeaderBinding

variable {P : TypedLiteral → Prop}

structure Hereditary (P : TypedLiteral → Prop) : Prop where
  first : P ⟨.int 0, .int32⟩
  next : ∀ v, P v → Yields P v.successor
  written : ∀ (ctx : EvalContext) (source : String), (∀ name v, ctx.value name = .found v → P v) →
    Yields P (evaluateText ctx source)

theorem hereditary_true : Hereditary fun _ => True :=
  ⟨True.intro, fun _ _ => Yields.trivial _, fun _ _ _ => Yields.trivial _⟩

def Knowledge.All (P : TypedLiteral → Prop) (k : Knowledge) : Prop :=
  ∀ (name : String) (v : TypedLiteral), k.values[name]? = some v → P v

theorem Knowledge.All.define {k : Knowledge} (h : k.All P) (name : String) {v : TypedLiteral} (hv : P v) :
    (k.define name v).All P := by
  intro n w hw
  simp only [Knowledge.define, Std.HashMap.getElem?_insert] at hw
  split at hw
  · exact Option.some.inj hw ▸ hv
  · exact h n w hw

theorem Knowledge.All.learn {k : Knowledge} (h : k.All P) (name : String) {value : Option TypedLiteral}
    (hvalue : ∀ v ∈ value, P v) : (k.learn name value).All P := by
  cases value with
  | some v => exact h.define name (hvalue v rfl)
  | none =>
    unfold Knowledge.learn Knowledge.defer
    dsimp only
    split <;> exact h

def Progress.All (P : TypedLiteral → Prop) (p : Progress) : Prop :=
  p.known.All P

theorem ensures_attempt (name : String) {value : Option TypedLiteral}
    {evaluate : Knowledge → Except EvalError TypedLiteral} (hvalue : ∀ v ∈ value, P v)
    (hevaluate : ∀ k : Knowledge, k.All P → Yields P (evaluate k)) :
    Ensures (Progress.All P) (fun r => ∀ v ∈ r, P v) (Progress.attempt name value evaluate) := by
  intro p hp
  unfold Progress.attempt
  split
  · exact ⟨hvalue, hp⟩
  · cases hr : evaluate p.known with
    | ok v =>
      have hv : P v := hevaluate p.known hp v hr
      exact ⟨fun w hw => Option.some.inj hw ▸ hv, Knowledge.All.define hp name hv⟩
    | error e =>
      refine ⟨nofun, ?_⟩
      rw [Progress.All, Progress.known_fail]
      exact hp

theorem Knowledge.All.found {k : Knowledge} (h : k.All P) (target : String → CastTarget) {name : String}
    {v : TypedLiteral} (hv : (k.context target).value name = .found v) : P v := by
  unfold context lookup at hv
  dsimp only at hv
  split at hv
  · next w hw => exact Lookup.found.inj hv ▸ h name w hw
  · split at hv <;> cases hv

def Valued (P : TypedLiteral → Prop) (items : List Item) : Prop :=
  ∀ i ∈ items, ∀ v ∈ i.value, P v

namespace Valued

theorem append {items items' : List Item} : Valued P (items ++ items') ↔ Valued P items ∧ Valued P items' :=
  List.forall_mem_append

theorem flatMap {α : Type} {as : List α} {items : α → List Item} :
    Valued P (as.flatMap items) ↔ ∀ a ∈ as, Valued P (items a) := by
  simp only [Valued, List.mem_flatMap]
  constructor
  · intro h a ha i hi
    exact h i ⟨a, ha, hi⟩
  · rintro h i ⟨a, ha, hi⟩
    exact h a ha i hi

theorem ofMembers {before : Option String} {ms : List Enumerator} :
    Valued P (Item.ofMembers before ms) ↔ ∀ m ∈ ms, ∀ v ∈ m.value, P v := by
  induction ms generalizing before with
  | nil => exact ⟨nofun, nofun⟩
  | cons m rest ih =>
    rw [List.forall_mem_cons, ← @ih (some m.name)]
    exact List.forall_mem_cons

theorem enumeration {e : Enumeration} : Valued P e.items ↔ ∀ m ∈ e.members, ∀ v ∈ m.value, P v :=
  ofMembers

end Valued

def noValues : Values := fun _ => none

structure Revalued {α : Type} (P : TypedLiteral → Prop) (assign : Values → α → α) (items : α → List Item)
    (a a' : α) : Prop where
  assign_eq : assign noValues a' = assign noValues a
  valued : Valued P (items a')

section

variable (hP : Hereditary P) (target : String → CastTarget)

include hP

theorem ensures_constant {c : Constant} (h : Valued P [c.item]) :
    Ensures (Progress.All P) (Revalued P Constant.assign (fun c => [c.item]) c) (evaluateConstant target c) := by
  have hvalue : ∀ v ∈ c.value, P v := h c.item (List.mem_singleton_self _)
  have hattempt := ensures_attempt c.name hvalue fun k hk =>
    hP.written (k.context target) c.expr fun _ _ => hk.found target
  intro p hp
  obtain ⟨hv, hq⟩ := hattempt p hp
  exact ⟨⟨rfl, List.forall_mem_singleton.mpr hv⟩, hq⟩

theorem yields_enumeratorValue {k : Knowledge} (hk : k.All P) {previous : Previous}
    (hprevious : ∀ v, previous = .valued v → P v) (m : Enumerator) :
    Yields P (enumeratorValue target k previous m) := by
  unfold enumeratorValue
  split
  · exact hP.written _ _ fun _ _ => hk.found target
  · exact Yields.ok hP.first
  · exact hP.next _ (hprevious _ rfl)
  · exact Yields.error _ _

theorem ensures_members (ms : List Enumerator) (previous : Previous)
    (hprevious : ∀ v, previous = .valued v → P v) (h : ∀ m ∈ ms, ∀ v ∈ m.value, P v) :
    Ensures (Progress.All P) (fun ms' =>
        ms'.map (fun m => { m with value := noValues m.name }) =
          ms.map (fun m => { m with value := noValues m.name }) ∧
        ∀ m ∈ ms', ∀ v ∈ m.value, P v)
      (evaluateMembers target previous ms) := by
  induction ms generalizing previous with
  | nil => exact .pure ⟨rfl, nofun⟩
  | cons m rest ih =>
    obtain ⟨hm, hrest⟩ := List.forall_mem_cons.mp h
    have hattempt := ensures_attempt m.name hm fun k hk =>
      yields_enumeratorValue hP target hk hprevious m
    intro p hp
    obtain ⟨hv, hq⟩ := hattempt p hp
    have hnext : ∀ w, Previous.ofValue
        (Progress.attempt m.name m.value (fun k => enumeratorValue target k previous m) p).1 = .valued w →
        P w := by
      intro w hw
      refine hv w ?_
      cases hvalue : (Progress.attempt m.name m.value (fun k => enumeratorValue target k previous m) p).1 with
      | none =>
        rw [hvalue] at hw
        cases hw
      | some w' =>
        rw [hvalue] at hw
        cases hw
        rfl
    obtain ⟨⟨hbare, hms⟩, hr⟩ := ih _ hnext hrest _ hq
    exact ⟨⟨congrArg (List.cons _) hbare, List.forall_mem_cons.mpr ⟨hv, hms⟩⟩, hr⟩

theorem ensures_enumeration {e : Enumeration} (h : Valued P e.items) :
    Ensures (Progress.All P) (Revalued P Enumeration.assign Enumeration.items e) (evaluateEnumeration target e) := by
  have hmembers := ensures_members hP target e.members .nothing nofun (Valued.enumeration.mp h)
  refine hmembers.map (Enumeration.mk e.name) fun ms ⟨hbare, hms⟩ => ⟨?_, Valued.enumeration.mpr hms⟩
  exact congrArg (Enumeration.mk e.name) hbare

end

theorem Table.Matches.map_eq {α : Type} {T : α → α → Prop} {t u : Table α} {f : α → α} (h : t.Matches T u)
    (hf : ∀ a b, T a b → f b = f a) : u.map f = t.map f := by
  have hentries : t.toList.map f = u.toList.map f := map_eq_of_forall₂ h.entries fun a b hab => (hf a b hab).symm
  rw [Table.map, Table.map, h.index_eq]
  simpa [Table.toList, ← Array.toList_inj] using hentries.symm

theorem Definition.toType_assign (f : Values) (d : Definition) : (d.assign f).toType = d.toType.assign f := by
  cases d with
  | record kind body => rw [assign_record, toType, toType, NativeType.assign_record]
  | enumeration e => rfl

theorem Definition.toType_injective {d d' : Definition} (h : d.toType = d'.toType) : d = d' := by
  cases d <;> cases d' <;> cases h <;> rfl

namespace Store

variable {s t : Store}

theorem valued_items : Valued P s.items ↔ (∀ c ∈ s.constants.toList, ∀ v ∈ c.value, P v) ∧
    ∀ x ∈ s.enumerations, ∀ m ∈ x.2.members, ∀ v ∈ m.value, P v := by
  rw [items_eq_enumerations, List.map_eq_flatMap, Valued.append, Valued.flatMap, Valued.flatMap]
  simp only [Valued.enumeration]
  refine and_congr_left' (forall₂_congr fun c _ => ?_)
  exact List.forall_mem_singleton

theorem Alike.revalued (h : s.Alike (Revalued P Constant.assign fun c => [c.item])
    (Revalued P Enumeration.assign Enumeration.items) t) : Revalued P assign items s t := by
  have htype : ∀ t u : NativeType, NativeType.Related Eq (Revalued P Enumeration.assign Enumeration.items) t u →
      u.assign noValues = t.assign noValues :=
    fun t u htu => (htu.rewrite_eq (fun _ _ hr => hr) fun _ _ he => he.assign_eq.symm).symm
  have hconstants := h.constants.map_eq fun c c' hc => hc.assign_eq
  have htypedefs : t.typedefs.map (Typedef.assign noValues) = s.typedefs.map (Typedef.assign noValues) :=
    h.typedefs.map_eq fun d d' hd => by rw [Typedef.assign, Typedef.assign, hd.1, htype _ _ hd.2]
  have hdefinitions : t.definitions.map (Definition.assign noValues) =
      s.definitions.map (Definition.assign noValues) := by
    refine h.definitions.map_eq fun d d' hd => Definition.toType_injective ?_
    rw [Definition.toType_assign, Definition.toType_assign]
    exact htype _ _ hd
  constructor
  · rw [assign, hconstants, htypedefs, hdefinitions, h.eq]
    rfl
  · rw [items_eq_enumerations, List.map_eq_flatMap, Valued.append, Valued.flatMap, Valued.flatMap]
    constructor
    · intro c' hc'
      obtain ⟨c, -, hc⟩ := exists_of_forall₂_right h.constants.entries hc'
      exact hc.valued
    · intro x' hx'
      obtain ⟨x, -, hx⟩ := exists_of_forall₂_right h.enumerations hx'
      exact hx.valued

theorem ensures_revalued (hP : Hereditary P) (target : String → CastTarget) (h : Valued P s.items) :
    Ensures (Progress.All P) (Revalued P assign items s) (sweep target s) := by
  obtain ⟨hconstants, henumerations⟩ := valued_items.mp h
  have hsweep := ensures_sweep target
    (fun c hc => ensures_constant hP target (List.forall_mem_singleton.mpr (hconstants c hc)))
    (fun x hx => ensures_enumeration hP target (Valued.enumeration.mpr (henumerations x hx)))
  exact fun p hp => (hsweep p hp).imp_left Alike.revalued

end Store

theorem Revalued.refl {α : Type} {assign : Values → α → α} {items : α → List Item} {a : α}
    (h : Valued P (items a)) : Revalued P assign items a a :=
  ⟨rfl, h⟩

namespace Store

variable {s : Store}

theorem revalued_sweeps (hP : Hereditary P) (target : String → CastTarget) (limit : Nat)
    (h : Valued P s.items) {p : Progress} (hp : p.known.All P) :
    Revalued P assign items s (sweeps target limit s p).1 := by
  have hall := sweeps_invariant target (I := fun t q => Revalued P assign items s t ∧ q.known.All P)
    (fun t q ⟨ht, hq⟩ => by
      obtain ⟨hsweep, hq⟩ := ensures_revalued hP target ht.valued q hq
      exact ⟨⟨hsweep.assign_eq.trans ht.assign_eq, hsweep.valued⟩, hq⟩) limit ⟨.refl h, hp⟩
  exact hall.1

theorem all_knowledge (h : Valued P s.items) : s.knowledge.All P := by
  rw [knowledge_eq]
  have hfold : ∀ (items : List Item) (k : Knowledge), k.All P → Valued P items →
      (items.foldl (fun k i => k.learn i.name i.value) k).All P := by
    intro items
    induction items with
    | nil => exact fun k hk _ => hk
    | cons i rest ih =>
      intro k hk h
      obtain ⟨hi, hrest⟩ := List.forall_mem_cons.mp h
      exact ih _ (hk.learn i.name hi) hrest
  exact hfold s.items .nothing (fun n v hv => by simp [Knowledge.nothing] at hv) h

theorem revalued_valuate (hP : Hereditary P) (h : Valued P s.items) (limit : Option Nat) :
    Revalued P assign items s (s.valuate limit).1 := by
  unfold valuate
  split
  · exact .refl h
  · exact revalued_sweeps hP _ _ h (all_knowledge h)

end Store

end HeaderBinding
