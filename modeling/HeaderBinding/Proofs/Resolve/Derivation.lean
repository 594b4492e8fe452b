import HeaderBinding.Proofs.Expr.Refinement
import HeaderBinding.Resolve.Item
import Mathlib.Data.List.Dedup
import Mathlib.Data.List.Nodup

namespace HeaderBinding

def Item.bare (i : Item) : Item :=
  { i with value := none }

def Coherent (items : List Item) : Prop :=
  ∀ i ∈ items, ∀ j ∈ items, i.name = j.name → i.value = j.value ∧ ∀ ctx, i.evaluate ctx = j.evaluate ctx

theorem coherent_of_nodup {items : List Item} (hd : (items.map (·.name)).Nodup) : Coherent items := by
  intro i hi j hj hname
  obtain rfl := List.inj_on_of_nodup_map hd hi hj hname
  exact ⟨rfl, fun _ => rfl⟩

namespace Coherent

variable {items : List Item}

theorem evaluate_eq (h : Coherent items) {i j : Item} (hi : i ∈ items) (hj : j ∈ items) (hname : i.name = j.name)
    (ctx : EvalContext) : i.evaluate ctx = j.evaluate ctx :=
  (h i hi j hj hname).2 ctx

theorem assign (h : Coherent items) (f : Values) : Coherent (items.map (Item.assign f)) := by
  simp only [Coherent, List.forall_mem_map]
  intro i hi j hj hname
  exact ⟨congrArg f hname, (h i hi j hj hname).2⟩

theorem bare (h : Coherent items) : Coherent (items.map Item.bare) :=
  h.assign fun _ => none

end Coherent

def Values.set (f : Values) (name : String) (v : TypedLiteral) : Values :=
  fun n => if name = n then some v else f n

theorem Values.set_self (f : Values) (name : String) (v : TypedLiteral) : f.set name v name = some v :=
  if_pos rfl

theorem Values.set_of_ne {f : Values} {name n : String} {v : TypedLiteral} (h : name ≠ n) :
    f.set name v n = f n :=
  if_neg h

section

variable (target : String → CastTarget) (items : List Item)

def contextOf (f : Values) : EvalContext where
  value n :=
    match f n with
    | some v => .found v
    | none => if n ∈ items.map (·.name) then .pending else .unknown
  target := target

def Grows (f g : Values) : Prop :=
  ∀ n, f n = g n ∨ f n = none ∧ n ∈ items.map (·.name)

inductive Derives (b : Values) : Values → Prop where
  | refl : Derives b b
  | step {f : Values} {i : Item} {v : TypedLiteral} : Derives b f → i ∈ items → f i.name = none →
      i.evaluate (contextOf target items f) = .ok v → Derives b (f.set i.name v)

def Closed (f : Values) : Prop :=
  ∀ i ∈ items, f i.name = none → ∀ v, i.evaluate (contextOf target items f) ≠ .ok v

def waiting (f : Values) : Nat :=
  (items.map (·.name)).dedup.countP fun n => (f n).isNone

end

variable {target : String → CastTarget} {items items' : List Item} {b f g : Values}

theorem Grows.trans {h : Values} (hfg : Grows items f g) (hgh : Grows items g h) : Grows items f h := by
  intro n
  rcases hfg n with heq | hnone
  · rw [heq]
    exact hgh n
  · exact .inr hnone

theorem Grows.eq_some (h : Grows items f g) {n : String} {v : TypedLiteral} (hf : f n = some v) :
    g n = some v := by
  rcases h n with heq | ⟨hnone, -⟩
  · rw [← heq, hf]
  · rw [hnone] at hf
    cases hf

theorem Grows.antisymm (hfg : Grows items f g) (hgf : Grows items g f) : f = g := by
  funext n
  rcases hfg n with heq | ⟨hf, -⟩
  · exact heq
  · rcases hgf n with heq | ⟨hg, -⟩
    · exact heq.symm
    · rw [hf, hg]

theorem grows_set {i : Item} (hi : i ∈ items) (hf : f i.name = none) (v : TypedLiteral) :
    Grows items f (f.set i.name v) := by
  intro n
  by_cases hn : i.name = n
  · subst hn
    exact .inr ⟨hf, List.mem_map_of_mem hi⟩
  · exact .inl (Values.set_of_ne hn).symm

theorem Grows.refines (h : Grows items f g) :
    (contextOf target items f).Refines (contextOf target items g) where
  target_eq := rfl
  value_eq n := by
    rcases h n with heq | ⟨hnone, hn⟩
    · simp only [contextOf, heq, or_true]
    · simp only [contextOf, hnone, if_pos hn, true_or]

theorem Item.evaluate_eq_of_settled {c d : EvalContext} (h : c.Refines d) {i : Item}
    (hi : Settled (i.evaluate c)) : i.evaluate d = i.evaluate c := by
  unfold evaluate at hi ⊢
  cases hrule : i.rule with
  | written expr =>
    rw [hrule] at hi
    exact ((h.evaluateText expr).eq_of_settled hi).symm
  | first => rfl
  | next before =>
    rw [hrule] at hi
    rcases h.value_eq before with hpending | heq
    · simp only [hpending] at hi
      exact absurd rfl (hi i.name)
    · simp only [heq]

theorem Grows.evaluate_eq (h : Grows items f g) {i : Item}
    (hi : Settled (i.evaluate (contextOf target items f))) :
    i.evaluate (contextOf target items g) = i.evaluate (contextOf target items f) :=
  Item.evaluate_eq_of_settled h.refines hi

theorem Grows.waiting_le (h : Grows items f g) : waiting items g ≤ waiting items f := by
  refine List.countP_mono_left fun n _ hn => ?_
  rcases h n with heq | ⟨hf, -⟩
  · rwa [heq]
  · rw [hf]
    rfl

theorem Grows.waiting_lt (h : Grows items f g) {n : String} (hf : f n = none) (hg : g n ≠ none) :
    waiting items g < waiting items f := by
  have hn : n ∈ items.map (·.name) := by
    rcases h n with heq | ⟨-, hn⟩
    · exact absurd (heq.symm.trans hf) hg
    · exact hn
  refine Store.countP_lt_countP (List.mem_dedup.mpr hn) ?_
    (by simpa [Option.isSome_iff_ne_none] using hg) (by simp [hf])
  intro n' _ hn'
  rcases h n' with heq | ⟨hf', -⟩
  · rwa [heq]
  · rw [hf']
    rfl

namespace Derives

theorem grows (h : Derives target items b f) : Grows items b f := by
  induction h with
  | refl => exact fun _ => .inl rfl
  | step _ hi hnone _ ih => exact ih.trans (grows_set hi hnone _)

theorem trans (hf : Derives target items b f) (hg : Derives target items f g) :
    Derives target items b g := by
  induction hg with
  | refl => exact hf
  | step _ hi hnone hv ih => exact ih.step hi hnone hv

theorem eq_or_first (h : Derives target items b f) : f = b ∨ ∃ i ∈ items, ∃ v, b i.name = none ∧
    i.evaluate (contextOf target items b) = .ok v ∧ Grows items (b.set i.name v) f := by
  induction h with
  | refl => exact .inl rfl
  | @step f i v _ hi hnone hv ih =>
    rcases ih with rfl | ⟨j, hj, w, hjnone, hw, hgrows⟩
    · exact .inr ⟨i, hi, v, hnone, hv, fun _ => .inl rfl⟩
    · exact .inr ⟨j, hj, w, hjnone, hw, hgrows.trans (grows_set hi hnone v)⟩

theorem eq_of_closed_base (h : Derives target items b f) (hclosed : Closed target items b) : f = b := by
  rcases h.eq_or_first with heq | ⟨i, hi, v, hnone, hv, -⟩
  · exact heq
  · exact absurd hv (hclosed i hi hnone v)

theorem justified (h : Derives target items b f) {n : String} {v : TypedLiteral} (hn : f n = some v) :
    b n = some v ∨ ∃ i ∈ items, i.name = n ∧ i.evaluate (contextOf target items f) = .ok v := by
  induction h with
  | refl => exact .inl hn
  | @step f i w _ hi hnone hw ih =>
    have hgrows := grows_set hi hnone w
    by_cases hname : i.name = n
    · subst hname
      rw [Values.set_self] at hn
      obtain rfl := Option.some.inj hn
      have hsame := hgrows.evaluate_eq (by rw [hw]; exact settled_ok w)
      exact .inr ⟨i, hi, rfl, hsame.trans hw⟩
    · rw [Values.set_of_ne hname] at hn
      rcases ih hn with hb | ⟨j, hj, hjn, hjv⟩
      · exact .inl hb
      · have hsame := hgrows.evaluate_eq (by rw [hjv]; exact settled_ok v)
        exact .inr ⟨j, hj, hjn, hsame.trans hjv⟩

theorem grows_closed (hc : Coherent items) (hf : Derives target items b f)
    (hg : Derives target items b g) (hclosed : Closed target items g) : Grows items f g := by
  induction hf with
  | refl => exact hg.grows
  | @step f i v hf hi hnone hv ih =>
    have hgv : i.evaluate (contextOf target items g) = .ok v :=
      (ih.evaluate_eq (by rw [hv]; exact settled_ok v)).trans hv
    have hvalue : g i.name = some v := by
      cases hgi : g i.name with
      | none => exact absurd hgv (hclosed i hi hgi v)
      | some w =>
        rcases hg.justified hgi with hb | ⟨j, hj, hji, hw⟩
        · rw [hf.grows.eq_some hb] at hnone
          cases hnone
        · rw [hc.evaluate_eq hj hi hji, hgv] at hw
          cases hw
          rfl
    intro n
    by_cases hname : i.name = n
    · subst hname
      exact .inl ((f.set_self i.name v).trans hvalue.symm)
    · rw [Values.set_of_ne hname]
      exact ih n

theorem eq_of_closed (hc : Coherent items) (hf : Derives target items b f)
    (hg : Derives target items b g) (hfc : Closed target items f) (hgc : Closed target items g) :
    f = g :=
  (hf.grows_closed hc hg hgc).antisymm (hg.grows_closed hc hf hfc)

end Derives

def SameItems (items items' : List Item) : Prop :=
  ∀ i, i ∈ items ↔ i ∈ items'

namespace SameItems

theorem map (h : SameItems items items') (f : Item → Item) : SameItems (items.map f) (items'.map f) := by
  intro i
  simp only [List.mem_map, h _]

theorem contextOf_eq (h : SameItems items items') : contextOf target items f = contextOf target items' f := by
  have hmem : ∀ n, n ∈ items.map (·.name) ↔ n ∈ items'.map (·.name) := by
    intro n
    simp only [List.mem_map, h _]
  simp only [contextOf, hmem]

theorem derives (h : SameItems items items') (hf : Derives target items b f) : Derives target items' b f := by
  induction hf with
  | refl => exact .refl
  | step _ hi hnone hv ih =>
    rw [h.contextOf_eq] at hv
    exact ih.step ((h _).mp hi) hnone hv

theorem closed (h : SameItems items items') (hf : Closed target items f) : Closed target items' f := by
  intro i hi hnone v hv
  rw [← h.contextOf_eq] at hv
  exact hf i ((h i).mpr hi) hnone v hv

end SameItems

end HeaderBinding
