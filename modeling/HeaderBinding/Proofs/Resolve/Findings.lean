import HeaderBinding.Proofs.Native.Same
import HeaderBinding.Proofs.Resolve.Binding
import HeaderBinding.Proofs.Resolve.Ensures
import HeaderBinding.Proofs.Resolve.Linking
import HeaderBinding.Proofs.Resolve.Sweep
import HeaderBinding.Resolve.Basic

namespace HeaderBinding

open Declaration (name sameContent)
open NativeType (Related AlikeMembers)

def Lasts {α : Type} (before after : Option α) : Prop :=
  before = none ∨ after = before

theorem Lasts.refl {α : Type} (a : Option α) : Lasts a a :=
  .inr rfl

theorem Lasts.trans {α : Type} {a b c : Option α} (h : Lasts a b) (h' : Lasts b c) : Lasts a c := by
  rcases h with h | rfl
  · exact .inl h
  · exact h'

def Enumerator.Fills (m m' : Enumerator) : Prop :=
  m' = { m with value := m'.value } ∧ Lasts m.value m'.value

def Enumeration.Fills (e e' : Enumeration) : Prop :=
  e'.name = e.name ∧ List.Forall₂ Enumerator.Fills e.members e'.members

def Constant.Fills (c c' : Constant) : Prop :=
  c' = { c with value := c'.value } ∧ Lasts c.value c'.value

theorem Enumeration.Fills.refl (e : Enumeration) : Enumeration.Fills e e :=
  ⟨rfl, List.forall₂_same.mpr fun _ _ => ⟨rfl, .refl _⟩⟩

theorem Enumeration.Fills.trans {e e' e'' : Enumeration} (h : e.Fills e') (h' : e'.Fills e'') : e.Fills e'' := by
  refine ⟨h'.1.trans h.1, forall₂_comp h.2 h'.2 fun m _ m' m'' hm hm' => ⟨?_, hm.2.trans hm'.2⟩⟩
  rw [hm'.1, hm.1]

theorem sameOption_iff_of_lasts {v w : Option TypedLiteral} (h : Lasts v w) :
    sameOption TypedLiteral.same w v = true ↔ w = v := by
  rcases h with rfl | rfl
  · cases w with
    | none => simp [sameOption]
    | some w => simp [sameOption]
  · cases w with
    | none => simp [sameOption]
    | some w => simp [sameOption, w.same_refl]

theorem Enumerator.same_iff_of_fills {m m' : Enumerator} (h : m.Fills m') : m'.same m = true ↔ m'.value = m.value := by
  have hname : m'.name = m.name := by rw [h.1]
  have hexpr : m'.expr = m.expr := by rw [h.1]
  simp only [same, hname, hexpr, BEq.rfl, Bool.true_and]
  exact sameOption_iff_of_lasts h.2

def Enumeration.values (e : Enumeration) : List (Option TypedLiteral) :=
  e.members.map (·.value)

theorem Enumeration.eq_of_fills {e e' : Enumeration} (h : e.Fills e') (hvalues : e'.values = e.values) : e' = e := by
  have hmembers : e'.members = e.members := by
    obtain ⟨-, hms⟩ := h
    simp only [values] at hvalues
    generalize e.members = ms, e'.members = ms' at *
    induction hms with
    | nil => rfl
    | @cons m m' _ _ hm _ ih =>
      rw [List.map_cons, List.map_cons, List.cons.injEq] at hvalues
      rw [ih hvalues.2, hm.1, hvalues.1]
  cases e
  cases e'
  exact congrArg₂ Enumeration.mk h.1 hmembers

theorem Enumeration.values_eq_of_same {e e' : Enumeration} (h : e.Fills e') (hsame : e'.same e = true) :
    e'.values = e.values := by
  simp only [same, Bool.and_eq_true] at hsame
  have hall := hsame.2
  clear hsame
  obtain ⟨-, hms⟩ := h
  unfold values
  generalize e.members = ms, e'.members = ms' at *
  induction hms with
  | nil => rfl
  | cons hm _ ih =>
    rw [List.zip_cons_cons, List.all_cons, Bool.and_eq_true] at hall
    rw [List.map_cons, List.map_cons, (Enumerator.same_iff_of_fills hm).mp hall.1, ih hall.2]

namespace NativeType

def values (t : NativeType) : List (Option TypedLiteral) :=
  t.enumerations.flatMap Enumeration.values

theorem eq_of_fills {t u : NativeType} (h : Related Eq Enumeration.Fills t u) (hvalues : u.values = t.values) :
    u = t := by
  have hall : ∀ {es es' : List Enumeration}, List.Forall₂ Enumeration.Fills es es' →
      es'.flatMap Enumeration.values = es.flatMap Enumeration.values → List.Forall₂ Eq es es' := by
    intro es es' hes
    induction hes with
    | nil => exact fun _ => .nil
    | @cons e e' es es' he hes ih =>
      intro hvalues
      rw [List.flatMap_cons, List.flatMap_cons] at hvalues
      have hlength : e'.values.length = e.values.length := by
        rw [Enumeration.values, Enumeration.values, List.length_map, List.length_map, he.2.length_eq]
      obtain ⟨hhead, hrest⟩ := List.append_inj hvalues hlength
      exact .cons (Enumeration.eq_of_fills he hhead).symm (ih hrest)
  exact ((h.of_enumerations (hall h.enumerations hvalues)).eq).symm

theorem same_iff_of_fills {t u : NativeType} (h : Related Eq Enumeration.Fills t u) :
    u.same t = true ↔ u.values = t.values := by
  constructor
  · intro hsame
    have hsames := (Related.of_same hsame).enumerations
    have hfills := h.enumerations
    unfold values
    generalize t.enumerations = es at *
    generalize u.enumerations = es' at *
    induction hfills with
    | nil => rfl
    | cons he _ ih =>
      cases hsames with
      | cons hhead hrest =>
        rw [List.flatMap_cons, List.flatMap_cons, Enumeration.values_eq_of_same he hhead, ih hrest]
  · intro hvalues
    rw [eq_of_fills h hvalues, same_refl]

end NativeType

structure Findings where
  values : List (Option TypedLiteral)
  module : Option String
  deriving DecidableEq

class Resolvable (α : Type) [Declaration α] where
  findings : α → Findings
  Resolves : α → α → Prop
  refl : ∀ a, Resolves a a
  trans : ∀ {a b c}, Resolves a b → Resolves b c → Resolves a c
  mapRoots : ∀ {f : NativeType → NativeType}, (∀ t, (f t).shape = t.shape) → ∀ a,
    Resolves a (Declaration.mapRoots f a)
  name_eq : ∀ {a b}, Resolves a b → name b = name a
  sameContent_iff : ∀ {a b}, Resolves a b → (sameContent b a = true ↔ findings b = findings a)

section

variable {t u v : NativeType}

theorem fills_refl (t : NativeType) : Related Eq Enumeration.Fills t t :=
  .refl (fun _ => rfl) .refl t

theorem fills_trans (h : Related Eq Enumeration.Fills t u) (h' : Related Eq Enumeration.Fills u v) :
    Related Eq Enumeration.Fills t v :=
  h.trans h' (fun _ _ _ hr hr' => hr.trans hr') fun _ _ _ he he' => he.trans he'

end

instance : Resolvable Typedef where
  findings d := ⟨d.target.shape.values, none⟩
  Resolves d d' := d'.name = d.name ∧ Related Eq Enumeration.Fills d.target.shape d'.target.shape
  refl d := ⟨rfl, fills_refl _⟩
  trans h h' := ⟨h'.1.trans h.1, fills_trans h.2 h'.2⟩
  mapRoots {f} hf d := by
    refine ⟨rfl, ?_⟩
    rw [Typedef.mapRoots_eq, hf]
    exact fills_refl _
  name_eq h := h.1
  sameContent_iff {d d'} h := by
    change (d'.name == d.name && d'.target.shape.same d.target.shape) = true ↔ _
    rw [h.1, BEq.rfl, Bool.true_and, NativeType.same_iff_of_fills h.2, Findings.mk.injEq, and_iff_left rfl]

theorem Definition.name_eq_of_fills {d d' : Definition} (h : Related Eq Enumeration.Fills d.toType d'.toType) :
    d'.name = d.name := by
  cases d <;> cases d' <;> first
    | exact h.head.2.1.symm
    | exact h.head.1
    | exact absurd h.head id

theorem Definition.fills_shape {d d' : Definition} (h : Related Eq Enumeration.Fills d.toType d'.toType) :
    Related Eq Enumeration.Fills d.shape.toType d'.shape.toType := by
  cases d with
  | enumeration e =>
    cases d' with
    | enumeration e' => exact h
    | record kind' body' => exact absurd h.head id
  | record kind body =>
    cases d' with
    | enumeration e' => exact absurd h.head id
    | record kind' body' =>
      obtain ⟨name, ms⟩ := body
      obtain ⟨name', ms'⟩ := body'
      obtain ⟨rfl, rfl, hnames⟩ := h.head
      have hms : List.Forall₂ (AlikeMembers (Related Eq Enumeration.Fills)) ms ms' :=
        Related.alikeMembers_of_map hnames h.children
      rw [shape, shape, NativeType.shapeMembers_eq_map, NativeType.shapeMembers_eq_map]
      refine Related.record ?_ kind name
      refine List.forall₂_map_left_iff.mpr (List.forall₂_map_right_iff.mpr (hms.imp fun x y hxy => ⟨hxy.1, ?_⟩))
      exact hxy.2.shape (fun _ _ hr => hr ▸ rfl) fun _ _ he => he.1.symm

theorem Definition.name_shape (d : Definition) : d.shape.name = d.name := by
  cases d <;> rfl

instance : Resolvable Definition where
  findings d := ⟨d.shape.toType.values, none⟩
  Resolves d d' := Related Eq Enumeration.Fills d.shape.toType d'.shape.toType
  refl d := fills_refl _
  trans := fills_trans
  mapRoots hf d := by
    rw [Definition.shape_mapRoots hf]
    exact fills_refl _
  name_eq {d d'} h := by
    change d'.name = d.name
    rw [← d.name_shape, ← d'.name_shape]
    exact Definition.name_eq_of_fills h
  sameContent_iff {d d'} h := by
    change d'.shape.toType.same d.shape.toType = true ↔ _
    rw [NativeType.same_iff_of_fills h, Findings.mk.injEq, and_iff_left rfl]

instance : Resolvable Constant where
  findings c := ⟨[c.value], none⟩
  Resolves := Constant.Fills
  refl c := ⟨rfl, .refl _⟩
  trans h h' := by
    refine ⟨?_, h.2.trans h'.2⟩
    rw [h'.1, h.1]
  mapRoots _ _ := ⟨rfl, .refl _⟩
  name_eq {c c'} h := by
    change c'.name = c.name
    rw [h.1]
  sameContent_iff {c c'} h := by
    have hname : c'.name = c.name := by rw [h.1]
    have hexpr : c'.expr = c.expr := by rw [h.1]
    have hkind : c'.kind = c.kind := by rw [h.1]
    change c'.same c = true ↔ _
    simp only [Constant.same, hname, hexpr, hkind, BEq.rfl, Bool.true_and, Findings.mk.injEq, and_true,
      List.cons.injEq]
    exact sameOption_iff_of_lasts h.2

instance : Resolvable Procedure where
  findings p := ⟨[], p.module⟩
  Resolves p p' := p'.shape = { p.shape with module := p'.module } ∧ Lasts p.module p'.module
  refl p := ⟨rfl, .refl _⟩
  trans h h' := by
    refine ⟨?_, h.2.trans h'.2⟩
    rw [h'.1, h.1]
  mapRoots {f} hf p := by
    rw [Procedure.shape_mapRoots hf, Procedure.mapRoots_eq]
    exact ⟨rfl, .refl _⟩
  name_eq {p p'} h := by
    change p'.shape.name = p.shape.name
    rw [h.1]
  sameContent_iff {p p'} h := by
    change p'.shape.same p.shape = true ↔ _
    rw [h.1]
    simp only [Procedure.same, BEq.rfl, NativeType.same_refl, NativeType.sameParams_refl, Bool.true_and, Bool.and_true,
      Findings.mk.injEq, true_and]
    exact beq_iff_eq

namespace Table

variable {α : Type} {T : α → α → Prop} {t u v : Table α}

theorem matches_map {f : α → α} (h : ∀ a, T a (f a)) (t : Table α) : t.Matches T (t.map f) := by
  refine ⟨rfl, ?_⟩
  rw [toList_map]
  exact List.forall₂_map_right_iff.mpr (List.forall₂_same.mpr fun a _ => h a)

theorem matches_refl (h : ∀ a, T a a) (t : Table α) : t.Matches T t :=
  ⟨rfl, List.forall₂_same.mpr fun a _ => h a⟩

theorem Matches.trans (h : t.Matches T u) (h' : u.Matches T v) (hT : ∀ {a b c}, T a b → T b c → T a c) :
    t.Matches T v :=
  ⟨h'.index_eq.trans h.index_eq, forall₂_comp h.entries h'.entries fun _ _ _ _ hab hbc => hT hab hbc⟩

end Table

namespace Store

open Resolvable (Resolves)

structure Resolves (s t : Store) : Prop where
  eq : t = { s with
    typedefs := t.typedefs
    definitions := t.definitions
    constants := t.constants
    procedures := t.procedures }
  typedefs : s.typedefs.Matches Resolvable.Resolves t.typedefs
  definitions : s.definitions.Matches Resolvable.Resolves t.definitions
  constants : s.constants.Matches Resolvable.Resolves t.constants
  procedures : s.procedures.Matches Resolvable.Resolves t.procedures

variable {s t u : Store}

theorem Resolves.refl (s : Store) : s.Resolves s :=
  ⟨rfl, Table.matches_refl Resolvable.refl _, Table.matches_refl Resolvable.refl _,
    Table.matches_refl Resolvable.refl _, Table.matches_refl Resolvable.refl _⟩

theorem Resolves.trans (h : s.Resolves t) (h' : t.Resolves u) : s.Resolves u where
  eq := by
    rw [h'.eq, h.eq]
  typedefs := h.typedefs.trans h'.typedefs Resolvable.trans
  definitions := h.definitions.trans h'.definitions Resolvable.trans
  constants := h.constants.trans h'.constants Resolvable.trans
  procedures := h.procedures.trans h'.procedures Resolvable.trans

theorem resolves_link (s : Store) : s.Resolves s.link.1 := by
  have hshape : ∀ t : NativeType, (t.rewrite (·.linkedBy s.targetOf?) id).shape = t.shape := by
    refine NativeType.shape_rewrite fun r => ?_
    unfold Reference.linkedBy
    split
    · rfl
    · cases s.targetOf? r.name <;> rfl
  rw [link_eq]
  exact ⟨rfl, Table.matches_map (Resolvable.mapRoots hshape) _, Table.matches_map (Resolvable.mapRoots hshape) _,
    Table.matches_refl Resolvable.refl _, Table.matches_map (Resolvable.mapRoots hshape) _⟩

end Store

section

variable (target : String → CastTarget)

theorem ensures_lasting (n : String) (value : Option TypedLiteral)
    (evaluate : Knowledge → Except EvalError TypedLiteral) :
    Ensures (fun _ => True) (Lasts value) (Progress.attempt n value evaluate) := by
  intro p _
  refine ⟨?_, trivial⟩
  cases value with
  | none => exact .inl rfl
  | some v => exact .inr rfl

theorem ensures_filled_constant (c : Constant) : Ensures (fun _ => True) c.Fills (evaluateConstant target c) :=
  (ensures_lasting c.name c.value _).map (fun v => { c with value := v }) fun _ hv => ⟨rfl, hv⟩

theorem ensures_filled_members (ms : List Enumerator) (previous : Previous) :
    Ensures (fun _ => True) (List.Forall₂ Enumerator.Fills ms) (evaluateMembers target previous ms) := by
  induction ms generalizing previous with
  | nil => exact .pure .nil
  | cons m rest ih =>
    have hm : Ensures (fun _ => True) m.Fills (evaluateEnumerator target previous m) :=
      (ensures_lasting m.name m.value _).map (fun v => { m with value := v }) fun _ hv => ⟨rfl, hv⟩
    exact hm.bind fun m' hm' => (ih _).map (List.cons m') fun _ hms => .cons hm' hms

theorem ensures_filled (e : Enumeration) : Ensures (fun _ => True) e.Fills (evaluateEnumeration target e) :=
  (ensures_filled_members target e.members .nothing).map (Enumeration.mk e.name) fun _ hms => ⟨rfl, hms⟩

end

namespace Store

variable {s t : Store}

theorem Alike.resolves (h : s.Alike Constant.Fills Enumeration.Fills t) : s.Resolves t where
  eq := by
    rw [h.eq]
  typedefs := by
    refine ⟨h.typedefs.index_eq, h.typedefs.entries.imp fun d d' hd => ⟨hd.1.symm, ?_⟩⟩
    exact hd.2.shape (fun _ _ hr => hr ▸ rfl) fun _ _ he => he.1.symm
  definitions := by
    exact ⟨h.definitions.index_eq, h.definitions.entries.imp fun d d' hd => Definition.fills_shape hd⟩
  constants := h.constants
  procedures := by
    rw [h.eq]
    exact Table.matches_refl Resolvable.refl _

theorem resolves_valuate (s : Store) (maxPasses : Option Nat) : s.Resolves (s.valuate maxPasses).1 := by
  unfold valuate
  split
  · exact .refl s
  · refine sweeps_invariant s.castTarget (I := fun t _ => s.Resolves t) (fun t p h => ?_) _ (.refl s)
    have hsweep := ensures_sweep s.castTarget (s := t) (fun c _ => ensures_filled_constant s.castTarget c)
      fun x _ => ensures_filled s.castTarget x.2
    exact h.trans (hsweep p trivial).1.resolves

theorem resolves_bind {σ : Type} [ExportProvider σ] (s : Store) (x : Inquiry σ) : s.Resolves (s.bind x).1 := by
  have hprocedure : ∀ p : Procedure, Ensures (fun _ => True) (Resolvable.Resolves p) (p.bind (σ := σ)) := by
    intro p ⟨x, report⟩ _
    refine ⟨?_, trivial⟩
    by_cases hskip : (report.error.isSome || !p.isUnbound) = true
    · rw [Procedure.bind_skipped hskip]
      exact Resolvable.refl p
    · simp only [Procedure.bind, hskip, Bool.false_eq_true, if_false]
      have hnone : p.module = none := by
        rw [Bool.or_eq_true, Bool.not_eq_true', not_or, Bool.not_eq_false] at hskip
        exact Option.isNone_iff_eq_none.mp (Bool.and_eq_true_iff.mp hskip.2).2
      split
      · exact Resolvable.refl p
      · exact Resolvable.refl p
      · exact ⟨rfl, .inl hnone⟩
  have htable := Ensures.table s.procedures fun p _ => hprocedure p
  exact ⟨rfl, Table.matches_refl Resolvable.refl _, Table.matches_refl Resolvable.refl _,
    Table.matches_refl Resolvable.refl _, (htable _ trivial).1⟩

theorem resolves_resolve (s : Store) (options : ResolveOptions) : s.Resolves (s.resolve options).1 :=
  (resolves_link s).trans (resolves_valuate s.link.1 options.maxPasses)

theorem resolves_resolveWithSource {σ : Type} [ExportProvider σ] (options : ResolveOptions) (s : Store) (source : σ)
    (modules : ModuleList) : s.Resolves (s.resolveWithSource options source modules).1 := by
  unfold resolveWithSource
  dsimp only
  split
  · exact (resolves_resolve s options).trans (resolves_bind _ _)
  · exact resolves_resolve s options

end Store

end HeaderBinding
