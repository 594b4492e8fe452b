import HeaderBinding.Proofs.Convert.Reloaded
import HeaderBinding.Proofs.Emission.Apart

namespace HeaderBinding

open Managed (Primitive TypeDecl EnumMember)

namespace LiteralType

theorem widening_sorted : widening.Pairwise (·.rank < ·.rank) := by
  decide

theorem not_of_find?_widening {p : LiteralType → Bool} {t t' : LiteralType} (h : widening.find? p = some t)
    (ht' : t' ∈ widening) (hlt : t'.rank < t.rank) : p t' = false := by
  obtain ⟨-, before, after, hsplit, hbefore⟩ := List.find?_eq_some_iff_append.mp h
  have hsorted := widening_sorted
  rw [hsplit] at ht' hsorted
  rcases List.mem_append.mp ht' with hmem | hmem
  · simpa using hbefore t' hmem
  · obtain ⟨hafter, -⟩ := List.pairwise_cons.mp (List.pairwise_append.mp hsorted).2.1
    rcases List.mem_cons.mp hmem with rfl | hmem
    · omega
    · have hgt := hafter t' hmem
      omega

end LiteralType

theorem Literal.bounds_of_toInt? {l : Literal} {n : Int} (h : l.toInt? = some n) : -2 ^ 63 ≤ n ∧ n < 2 ^ 64 := by
  cases l with
  | int k =>
    cases h
    have hlow := k.le_toInt
    have hhigh := k.toInt_lt
    omega
  | uint k =>
    cases h
    have hhigh := k.toNat_lt
    omega
  | char c =>
    cases h
    have hhigh := c.val.toNat_lt
    change -2 ^ 63 ≤ (c.val.toNat : Int) ∧ (c.val.toNat : Int) < 2 ^ 64
    omega
  | bool b =>
    cases h
    cases b <;> decide
  | _ => cases h

theorem underlyingType?_of_find? {ns : List Int} {t : LiteralType}
    (h : LiteralType.widening.find? (fun t => ns.all t.holds) = some t) :
    underlyingType? ns = if t = .int32 then none else some t := by
  unfold underlyingType?
  rw [h]
  cases t <;> rfl

namespace Enumeration

variable {e : Enumeration} {underlying : Option Primitive} {members : List EnumMember}

def valued (e : Enumeration) : List Enumerator :=
  e.members.filter (·.value.isSome)

def integers (e : Enumeration) : List Int :=
  e.members.filterMap fun m => m.value.bind (·.literal.toInt?)

def FitsIn (e : Enumeration) (t : LiteralType) : Prop :=
  ∀ m ∈ e.members, ∀ v, m.value = some v → ∃ n, v.literal.toInt? = some n ∧ t.holds n = true

def Fits (e : Enumeration) : Prop :=
  ∃ t ∈ LiteralType.widening, e.FitsIn t

structure DeclaresIn (t : LiteralType) (m : Enumerator) (n : EnumMember) : Prop where
  name : n.name = m.name
  type : n.value.type = t
  wellFormed : n.value.WellFormed
  value : ∃ v k, m.value = some v ∧ v.literal.toInt? = some k ∧ n.value.literal.toInt? = some k ∧ t.holds k = true

def WellTyped (e : Enumeration) (underlying : Option Primitive) (members : List EnumMember) : Prop :=
  ∃ t ∈ LiteralType.widening,
    underlying = (if t = .int32 then none else Primitive.ofLiteralType? t) ∧
    List.Forall₂ (DeclaresIn t) e.valued members ∧
    ∀ t' ∈ LiteralType.widening, t'.rank < t.rank →
      ∃ n ∈ members, ∃ k, n.value.literal.toInt? = some k ∧ t'.holds k = false

theorem mem_valued {m : Enumerator} : m ∈ e.valued ↔ m ∈ e.members ∧ ∃ v, m.value = some v := by
  rw [valued, List.mem_filter, Option.isSome_iff_exists]

theorem mem_integers {n : Int} :
    n ∈ e.integers ↔ ∃ m ∈ e.members, ∃ v, m.value = some v ∧ v.literal.toInt? = some n := by
  simp only [integers, List.mem_filterMap, Option.bind_eq_some_iff]

theorem FitsIn.all_holds {t : LiteralType} (h : e.FitsIn t) : e.integers.all t.holds = true := by
  rw [List.all_eq_true]
  intro n hn
  obtain ⟨m, hm, v, hv, hvalue⟩ := mem_integers.mp hn
  obtain ⟨k, hk, hholds⟩ := h m hm v hv
  rw [Option.some.inj (hvalue.symm.trans hk)]
  exact hholds

theorem FitsIn.of_all_holds {t t' : LiteralType} (h : e.FitsIn t) (hall : e.integers.all t'.holds = true) :
    e.FitsIn t' := by
  intro m hm v hv
  obtain ⟨n, hn, -⟩ := h m hm v hv
  exact ⟨n, hn, List.all_eq_true.mp hall n (mem_integers.mpr ⟨m, hm, v, hv, hn⟩)⟩

theorem fits_iff : e.Fits ↔
    (∀ m ∈ e.members, ∀ v, m.value = some v → ∃ n, v.literal.toInt? = some n) ∧
      ((∀ n ∈ e.integers, 0 ≤ n) ∨ ∀ n ∈ e.integers, n < 2 ^ 63) := by
  constructor
  · rintro ⟨t, -, h⟩
    refine ⟨fun m hm v hv => ?_, ?_⟩
    · obtain ⟨n, hn, -⟩ := h m hm v hv
      exact ⟨n, hn⟩
    · have hall := List.all_eq_true.mp h.all_holds
      cases ht : t.isUnsigned with
      | true => exact .inl fun n hn => LiteralType.holds_nonneg (hall n hn) ht
      | false => exact .inr fun n hn => LiteralType.holds_lt (hall n hn) ht
  · rintro ⟨hintegers, hsign⟩
    have hfits (t : LiteralType) (hholds : ∀ n ∈ e.integers, -2 ^ 63 ≤ n → n < 2 ^ 64 → t.holds n = true) :
        e.FitsIn t := by
      intro m hm v hv
      obtain ⟨n, hn⟩ := hintegers m hm v hv
      obtain ⟨hlow, hhigh⟩ := Literal.bounds_of_toInt? hn
      exact ⟨n, hn, hholds n (mem_integers.mpr ⟨m, hm, v, hv, hn⟩) hlow hhigh⟩
    rcases hsign with hsign | hsign
    · exact ⟨.uint64, by decide, hfits _ fun n hn _ hhigh => LiteralType.holds_uint64 (hsign n hn) hhigh⟩
    · exact ⟨.int64, by decide, hfits _ fun n hn hlow _ => (LiteralType.holds_iff rfl).mpr ⟨hlow, hsign n hn⟩⟩

theorem WellTyped.fits (h : e.WellTyped underlying members) : e.Fits := by
  obtain ⟨t, ht, -, hmembers, -⟩ := h
  refine ⟨t, ht, fun m hm v hv => ?_⟩
  obtain ⟨n, -, hn⟩ := exists_of_forall₂_left hmembers (mem_valued.mpr ⟨hm, v, hv⟩)
  obtain ⟨v', k, hv', hk, -, hholds⟩ := hn.value
  obtain rfl := Option.some.inj (hv.symm.trans hv')
  exact ⟨k, hk, hholds⟩

end Enumeration

theorem enumDecl_eq (given : String) (e : Enumeration) :
    enumDecl given e = ⟨given, [], .enumeration ((underlyingType? e.integers).bind Primitive.ofLiteralType?)
      (e.members.filterMap fun m => m.value.map fun v =>
        ⟨m.name, (v.narrowedTo? ((underlyingType? e.integers).getD .int32)).getD v⟩)⟩ := by
  have hintegers : (e.members.filterMap fun m => m.value.map (m.name, ·)).filterMap (·.2.literal.toInt?) =
      e.integers := by
    rw [List.filterMap_filterMap]
    refine List.filterMap_congr fun m _ => ?_
    cases m.value <;> rfl
  have hmembers (t : LiteralType) : (e.members.filterMap fun m => m.value.map (m.name, ·)).map
        (fun x => EnumMember.mk x.1 ((x.2.narrowedTo? t).getD x.2)) =
      e.members.filterMap fun m => m.value.map fun v => EnumMember.mk m.name ((v.narrowedTo? t).getD v) := by
    simp only [List.map_filterMap, Option.map_map]
    rfl
  rw [← hintegers, ← hmembers]
  rfl

theorem declaresIn_narrowed {t : LiteralType} {m : Enumerator} {v : TypedLiteral} {n : Int} (hv : m.value = some v)
    (hn : v.literal.toInt? = some n) (hholds : t.holds n = true) :
    Enumeration.DeclaresIn t m ⟨m.name, (v.narrowedTo? t).getD v⟩ := by
  obtain ⟨w, hw⟩ := TypedLiteral.integerAs?_of_holds hholds
  obtain ⟨hvalue, htype⟩ := TypedLiteral.toInt?_of_integerAs? hw
  have hnarrowed : v.narrowedTo? t = some w := by
    rw [TypedLiteral.narrowedTo?, hn]
    exact hw
  rw [hnarrowed]
  exact ⟨rfl, htype, TypedLiteral.wellFormed_of_integerAs? hw, v, n, hv, hn, hvalue, hholds⟩

theorem forall₂_narrowed {e : Enumeration} {t : LiteralType} (h : e.FitsIn t) :
    List.Forall₂ (Enumeration.DeclaresIn t) e.valued
      (e.members.filterMap fun m => m.value.map fun v => ⟨m.name, (v.narrowedTo? t).getD v⟩) := by
  have hnarrowed : List.Forall₂ (fun m n => ∃ v, m.value = some v ∧ n = ⟨m.name, (v.narrowedTo? t).getD v⟩)
      e.valued (e.members.filterMap fun m => m.value.map fun v => EnumMember.mk m.name ((v.narrowedTo? t).getD v)) :=
    forall₂_filterMap (fun m v hv => ⟨v, hv, rfl⟩) e.members
  refine forall₂_imp_mem hnarrowed fun m hm n ⟨v, hv, hn⟩ => ?_
  obtain ⟨k, hk, hholds⟩ := h m (Enumeration.mem_valued.mp hm).1 v hv
  exact hn ▸ declaresIn_narrowed hv hk hholds

theorem exists_not_holds {e : Enumeration} {t t' : LiteralType} {members : List EnumMember}
    (hmembers : List.Forall₂ (Enumeration.DeclaresIn t) e.valued members) (h : e.integers.all t'.holds = false) :
    ∃ n ∈ members, ∃ k, n.value.literal.toInt? = some k ∧ t'.holds k = false := by
  obtain ⟨k, hk, hholds⟩ := List.all_eq_false.mp h
  obtain ⟨m, hm, v, hv, hvalue⟩ := Enumeration.mem_integers.mp hk
  obtain ⟨n, hn, hdeclares⟩ := exists_of_forall₂_left hmembers (Enumeration.mem_valued.mpr ⟨hm, v, hv⟩)
  obtain ⟨v', k', hv', hk', hnk, -⟩ := hdeclares.value
  obtain rfl := Option.some.inj (hv.symm.trans hv')
  obtain rfl := Option.some.inj (hvalue.symm.trans hk')
  exact ⟨n, hn, k, hnk, by simpa using hholds⟩

theorem wellTyped_enumDecl {given : String} {e : Enumeration} {underlying : Option Primitive}
    {members : List EnumMember} (h : (enumDecl given e).body = .enumeration underlying members) (hfits : e.Fits) :
    e.WellTyped underlying members := by
  obtain ⟨t₀, ht₀, hfits⟩ := hfits
  obtain ⟨t, hfind⟩ : ∃ t, LiteralType.widening.find? (fun t => e.integers.all t.holds) = some t :=
    Option.isSome_iff_exists.mp (List.find?_isSome.mpr ⟨t₀, ht₀, hfits.all_holds⟩)
  have hin : e.FitsIn t :=
    hfits.of_all_holds (List.find?_some (p := fun u => e.integers.all (LiteralType.holds u)) hfind)
  have hdeclared : (if t = .int32 then none else some t : Option LiteralType).getD .int32 = t := by
    split
    · next heq => exact heq.symm
    · rfl
  rw [enumDecl_eq, underlyingType?_of_find? hfind, hdeclared] at h
  obtain ⟨rfl, rfl⟩ := Managed.Body.enumeration.inj h
  have hmembers := forall₂_narrowed hin
  refine ⟨t, List.mem_of_find?_eq_some hfind, by split <;> rfl, hmembers, fun t' ht' hlt => ?_⟩
  exact exists_not_holds hmembers (LiteralType.not_of_find?_widening hfind ht' hlt)

namespace Config

variable {c : Config} {d : DeclarationSet} {source : ExportSource} {r : Conversion}

theorem wellTyped_iff_fits_of_convert (h : (c.convert d source).2.2 = some r) :
    let s := (c.convert d source).1
    ∃ us draft, Runs c.emission s .empty s.jobs us draft ∧ r.bindings.declarations = draft.types.toList ∧
      ∀ t ∈ r.bindings.types, ∀ underlying members, t.body = .enumeration underlying members →
        ∃ e, draft.taken[t.name]? = some (.enumeration e) ∧ .enumeration e ∈ s.bodies ∧
          List.Forall₂ DeclaresEnumerator e.valued members ∧
          (e.WellTyped underlying members ↔ e.Fits) := by
  intro s
  obtain ⟨emission, hemission, hbindings, -⟩ := exists_emission_of_convert h
  obtain ⟨us, vs, draft, hrun, rfl, hdraft, hbodies⟩ := Store.exists_runs_of_emit? hemission
  rw [hbindings]
  refine ⟨us ++ vs, draft, hrun, types_emission hdraft vs, fun t ht underlying members hbody => ?_⟩
  obtain ⟨body, ws, htaken, hmem, hisBody, -, heq⟩ := hbodies t ht (by rw [TypeDecl.isContainer, hbody])
  rw [heq] at hbody
  cases body with
  | enumeration e =>
    obtain ⟨_, _, hdeclared, hmembers⟩ := declaresBody_enumDecl t.name e
    obtain ⟨rfl, rfl⟩ := Managed.Body.enumeration.inj (hbody.symm.trans hdeclared)
    exact ⟨e, htaken, hmem, hmembers, fun hwell => hwell.fits, wellTyped_enumDecl hbody⟩
  | record kind body => cases hbody
  | function f => cases hbody
  | _ => cases hisBody

def limits : Enumeration :=
  ⟨"LIMITS", [⟨"LOW", some "-1", some ⟨.int (-1), .int32⟩⟩,
    ⟨"HIGH", some "0xFFFFFFFFFFFFFFFF", some ⟨.uint 0xFFFFFFFFFFFFFFFF, .uint64⟩⟩]⟩

theorem not_fits_limits : ¬limits.Fits := by
  rw [Enumeration.fits_iff]
  rintro ⟨-, h | h⟩
  · exact absurd (h (-1) (by decide)) (by decide)
  · exact absurd (h 0xFFFFFFFFFFFFFFFF (by decide)) (by decide)

def withLimits : DeclarationSet :=
  ⟨[], [.enumeration limits], [], [], []⟩

theorem entries_withLimits (source : ExportSource) :
    let s := (offline.convert withLimits source).1
    s.typedefs.toList = [] ∧ s.definitions.toList = [.enumeration limits] ∧ s.constants.toList = [] ∧
      s.procedures.toList = [] :=
  entries_of_valued (by decide) (by decide) (fun _ => rfl) source

theorem exists_convert_withLimits (source : ExportSource) : ∃ r, (offline.convert withLimits source).2.2 = some r ∧
    enumDecl "LIMITS" limits ∈ r.bindings.types ∧
    (offline.convert withLimits source).1.bodies = [.enumeration limits] := by
  obtain ⟨htypedefs, hdefinitions, -, hprocedures⟩ := entries_withLimits source
  have hemission (e : Emission) (he : (offline.convert withLimits source).1.emit? offline.emission = some e) :=
    exists_convert_of_emission he
  generalize (offline.convert withLimits source).1 = s at *
  have hbodyJobs : s.bodyJobs = [.declare "LIMITS" (.enumeration limits)] := by
    rw [Store.bodyJobs, htypedefs, hdefinitions]
    rfl
  have hmethodSites : s.methodSites = [] := by
    rw [Store.methodSites, hprocedures]
    rfl
  have hbodies : s.bodies = [.enumeration limits] := by
    rw [Store.bodies, Store.parts, Store.roots, htypedefs, hdefinitions, hprocedures]
    rfl
  have hrun : Runs offline.emission s .empty s.jobs ([.plain (.named "LIMITS")] ++ [])
      ⟨#[enumDecl "LIMITS" limits], (∅ : Taken).insert "LIMITS" (.enumeration limits), ∅, none, [], []⟩ := by
    rw [Store.jobs, hbodyJobs, hmethodSites]
    exact .fresh rfl (Draft.claim_empty ..) (.nil _) (.nil _)
  obtain ⟨r, hr, hbindings, -⟩ :=
    hemission _ (Store.emit?_eq_some_iff_runs.mpr ⟨_, _, _, by rw [hbodyJobs]; rfl, hrun, rfl⟩)
  refine ⟨r, hr, ?_, hbodies⟩
  rw [hbindings]
  exact List.mem_append_left _ (List.mem_singleton_self _)

theorem wellTyped_iff_fits_of_withLimits : ∃ r, (offline.convert withLimits .empty).2.2 = some r ∧
    ∃ t ∈ r.bindings.types, ∃ underlying members, t.body = .enumeration underlying members ∧
      ¬limits.WellTyped underlying members := by
  obtain ⟨r, hr, ht, hbodies⟩ := exists_convert_withLimits .empty
  obtain ⟨us, draft, -, -, hdeclared⟩ := wellTyped_iff_fits_of_convert hr
  obtain ⟨e, -, hmem, -, hwell⟩ := hdeclared _ ht _ _ rfl
  rw [hbodies] at hmem
  cases List.mem_singleton.mp hmem
  exact ⟨r, hr, _, ht, _, _, rfl, fun h => not_fits_limits (hwell.mp h)⟩

end Config

end HeaderBinding
