import HeaderBinding.Proofs.Native.Related
import HeaderBinding.Proofs.Store.Indexed
import HeaderBinding.Resolve.Valuation

namespace HeaderBinding

def Ensures {σ : Type} (I : σ → Prop) {α : Type} (Q : α → Prop) (step : StateM σ α) : Prop :=
  ∀ st, I st → Q (step st).1 ∧ I (step st).2

namespace Ensures

variable {σ α β γ : Type} {I : σ → Prop} {Q : α → Prop} {R : β → Prop}

theorem pure {a : α} (h : Q a) : Ensures I Q (Pure.pure a) :=
  fun _ hst => ⟨h, hst⟩

theorem bind {step : StateM σ α} {next : α → StateM σ β} (h : Ensures I Q step)
    (hnext : ∀ a, Q a → Ensures I R (next a)) : Ensures I R (step >>= next) := by
  intro st hst
  obtain ⟨ha, hst'⟩ := h st hst
  exact hnext _ ha _ hst'

theorem map {step : StateM σ α} (h : Ensures I Q step) (f : α → β) (hf : ∀ a, Q a → R (f a)) :
    Ensures I R (do let a ← step; return f a) :=
  h.bind fun a ha => pure (hf a ha)

theorem seq {S : γ → Prop} {step : StateM σ α} {step' : StateM σ β} (h : Ensures I Q step)
    (h' : Ensures I R step') (f : α → β → γ) (hf : ∀ a b, Q a → R b → S (f a b)) :
    Ensures I S (do let a ← step; let b ← step'; return f a b) :=
  h.bind fun a ha => h'.map (f a) fun b hb => hf a b ha hb

theorem mapM {step : α → StateM σ β} {T : α → β → Prop} (as : List α)
    (h : ∀ a ∈ as, Ensures I (T a) (step a)) : Ensures I (List.Forall₂ T as) (as.mapM step) := by
  induction as with
  | nil => exact pure .nil
  | cons a rest ih =>
    rw [List.mapM_cons]
    have ha := h a (List.mem_cons_self ..)
    have hrest := ih fun b hb => h b (List.mem_cons_of_mem a hb)
    exact ha.seq hrest List.cons fun _ _ hb hbs => .cons hb hbs

end Ensures

structure Table.Matches {α : Type} (T : α → α → Prop) (t u : Table α) : Prop where
  index_eq : u.index = t.index
  entries : List.Forall₂ T t.toList u.toList

theorem Ensures.table {σ α : Type} {I : σ → Prop} {step : α → StateM σ α} {T : α → α → Prop} (t : Table α)
    (h : ∀ a ∈ t.toList, Ensures I (T a) (step a)) : Ensures I (t.Matches T) (t.mapM step) :=
  (Ensures.mapM t.toList h).map (fun entries => { t with entries := entries.toArray }) fun _ he => ⟨rfl, he⟩

section

variable {σ : Type} {I : σ → Prop} {E : Enumeration → Enumeration → Prop} {f : Enumeration → StateM σ Enumeration}

open NativeType (Related AlikeMembers AlikeParams traverseMembers traverseParams)

mutual
theorem ensures_type : ∀ t : NativeType, (∀ e ∈ t.enumerations, Ensures I (E e) (f e)) →
    Ensures I (Related Eq E t) (t.mapEnumsM f)
  | .builtin b, _ => .pure (.builtin b)
  | .named r, _ => .pure (.named rfl)
  | .pointer pointee, h => by
    rw [NativeType.enumerations_pointer] at h
    exact (ensures_type pointee h).map (R := Related Eq E _) NativeType.pointer fun _ ht => ht.pointer
  | .array element rank length, h => by
    rw [NativeType.enumerations_array] at h
    exact (ensures_type element h).map (R := Related Eq E _) (NativeType.array · rank length)
      fun _ ht => ht.array rank length
  | .synonym name target, h => by
    rw [NativeType.enumerations_synonym] at h
    exact (ensures_type target h).map (R := Related Eq E _) (NativeType.synonym name) fun _ ht => ht.synonym name
  | .record kind ⟨name, members⟩, h => by
    rw [NativeType.enumerations_record] at h
    exact (ensures_memberTypes members h).map (R := Related Eq E _) (fun ms => NativeType.record kind ⟨name, ms⟩)
      fun _ hms => .record hms kind name
  | .enumeration e, h => by
    rw [NativeType.enumerations_enumeration] at h
    exact (h e (List.mem_singleton_self e)).map (R := Related Eq E _) NativeType.enumeration
      fun _ he => .enumeration he
  | .function ⟨name, returns, params, convention⟩, h => by
    rw [NativeType.enumerations_function, List.forall_mem_append] at h
    exact (ensures_type returns h.1).seq (S := Related Eq E _) (ensures_paramTypes params h.2)
      (fun t ps => NativeType.function ⟨name, t, ps, convention⟩) fun _ _ ht hps => .function ht hps name convention
termination_by structural t => t

theorem ensures_memberTypes : ∀ ms : List (Member NativeType),
    (∀ e ∈ ms.flatMap (·.type.enumerations), Ensures I (E e) (f e)) →
    Ensures I (List.Forall₂ (AlikeMembers (Related Eq E)) ms) (traverseMembers (fun _ => pure ()) pure f ms)
  | [], _ => .pure .nil
  | ⟨name, type⟩ :: rest, h => by
    rw [List.flatMap_cons, List.forall_mem_append] at h
    exact (ensures_type type h.1).seq (S := List.Forall₂ (AlikeMembers (Related Eq E)) _)
      (ensures_memberTypes rest h.2) (fun t ms => ⟨name, t⟩ :: ms) fun _ _ ht hms => .cons ⟨rfl, ht⟩ hms
termination_by structural ms => ms

theorem ensures_paramTypes : ∀ ps : List (Parameter NativeType),
    (∀ e ∈ ps.flatMap (·.type.enumerations), Ensures I (E e) (f e)) →
    Ensures I (List.Forall₂ (AlikeParams (Related Eq E)) ps) (traverseParams (fun _ => pure ()) pure f ps)
  | [], _ => .pure .nil
  | ⟨name, type, direction⟩ :: rest, h => by
    rw [List.flatMap_cons, List.forall_mem_append] at h
    exact (ensures_type type h.1).seq (S := List.Forall₂ (AlikeParams (Related Eq E)) _)
      (ensures_paramTypes rest h.2) (fun t ps => ⟨name, t, direction⟩ :: ps) fun _ _ ht hps => .cons ⟨rfl, rfl, ht⟩ hps
termination_by structural ps => ps
end

end

def Typedef.Alike (E : Enumeration → Enumeration → Prop) (d d' : Typedef) : Prop :=
  d.name = d'.name ∧ NativeType.Related Eq E d.target d'.target

def Definition.Alike (E : Enumeration → Enumeration → Prop) (d d' : Definition) : Prop :=
  NativeType.Related Eq E d.toType d'.toType

theorem Definition.enumerations_toType (d : Definition) : d.toType.enumerations = d.enumerations := by
  cases d with
  | record kind body => simp [toType, enumerations, memberTypes, List.flatMap_map]
  | enumeration e => simp [toType, enumerations]

section

variable {σ : Type} {I : σ → Prop} {E : Enumeration → Enumeration → Prop} {f : Enumeration → StateM σ Enumeration}

theorem ensures_typedef {d : Typedef} (h : ∀ e ∈ d.target.enumerations, Ensures I (E e) (f e)) :
    Ensures I (d.Alike E) (do return { d with target := ← d.target.mapEnumsM f }) :=
  (ensures_type d.target h).map (fun t => { d with target := t }) fun _ ht => ⟨rfl, ht⟩

theorem ensures_definition {d : Definition} (h : ∀ e ∈ d.enumerations, Ensures I (E e) (f e)) :
    Ensures I (d.Alike E) (d.mapEnumsM f) := by
  cases d with
  | enumeration e =>
    have he := h e (List.mem_singleton_self e)
    exact he.map (R := Definition.Alike E _) Definition.enumeration fun _ he => .enumeration he
  | record kind body =>
    have hmember : ∀ x ∈ body.members, Ensures I (NativeType.AlikeMembers (NativeType.Related Eq E) x)
        (do return ({ x with type := ← x.type.mapEnumsM f } : Member NativeType)) := by
      intro x hx
      refine (ensures_type x.type fun e he => h e ?_).map (Member.mk x.name) fun _ ht => ⟨rfl, ht⟩
      exact List.mem_flatMap.mpr ⟨x.type, List.mem_map_of_mem hx, he⟩
    exact (Ensures.mapM body.members hmember).map (R := Definition.Alike E _)
      (fun ms => Definition.record kind ⟨body.name, ms⟩) fun _ hms => .record hms kind body.name

end

namespace Store

structure Alike (C : Constant → Constant → Prop) (E : Enumeration → Enumeration → Prop) (s t : Store) : Prop where
  eq : t = { s with constants := t.constants, typedefs := t.typedefs, definitions := t.definitions }
  constants : s.constants.Matches C t.constants
  typedefs : s.typedefs.Matches (Typedef.Alike E) t.typedefs
  definitions : s.definitions.Matches (Definition.Alike E) t.definitions

variable {C : Constant → Constant → Prop} {E : Enumeration → Enumeration → Prop} {s t : Store}

theorem Alike.enumerations (h : s.Alike C E t) :
    List.Forall₂ (fun x y => E x.2 y.2) s.enumerations t.enumerations := by
  have hentries : ∀ {k k' : Key} {es es' : List Enumeration}, List.Forall₂ E es es' →
      List.Forall₂ (fun x y : Key × Enumeration => E x.2 y.2) (es.map (k, ·)) (es'.map (k', ·)) :=
    fun hes => List.forall₂_map_left_iff.mpr (List.forall₂_map_right_iff.mpr hes)
  refine List.rel_append (List.rel_flatMap h.typedefs.entries ?_) (List.rel_flatMap h.definitions.entries ?_)
  · exact fun d d' hd => hentries hd.2.enumerations
  · intro d d' hd
    have henumerations := NativeType.Related.enumerations hd
    rw [d.enumerations_toType, d'.enumerations_toType] at henumerations
    exact hentries henumerations

end Store

theorem ensures_sweep {I : Progress → Prop} {C : Constant → Constant → Prop} {E : Enumeration → Enumeration → Prop}
    (target : String → CastTarget) {s : Store}
    (hconstant : ∀ c ∈ s.constants.toList, Ensures I (C c) (evaluateConstant target c))
    (henumeration : ∀ x ∈ s.enumerations, Ensures I (E x.2) (evaluateEnumeration target x.2)) :
    Ensures I (s.Alike C E) (sweep target s) := by
  rw [Store.enumerations, List.forall_mem_append] at henumeration
  simp only [List.forall_mem_flatMap, List.forall_mem_map] at henumeration
  have hc := Ensures.table s.constants hconstant
  have ht := Ensures.table s.typedefs fun d hd => ensures_typedef (henumeration.1 d hd)
  have hd := Ensures.table s.definitions fun d hd => ensures_definition (henumeration.2 d hd)
  refine hc.bind fun constants hc => ht.seq (S := s.Alike C E) hd
    (fun typedefs definitions =>
      ({ s with constants := constants, typedefs := typedefs, definitions := definitions } : Store))
    fun typedefs definitions ht hd => ⟨rfl, hc, ht, hd⟩

end HeaderBinding
