import HeaderBinding.Proofs.Emission.Reach
import HeaderBinding.Proofs.Graph.Twins
import HeaderBinding.Proofs.Managed.Reordered

namespace HeaderBinding

open Managed (TypeDecl EnumMember)

structure Site.Twins (x y : Site) : Prop where
  type : x.type.Twins y.type
  position : x.position = y.position
  place : x.place = y.place

inductive Job.Twins : Job → Job → Prop where
  | use {x y : Site} : x.Twins y → Job.Twins (.use x) (.use y)
  | declare (name : String) {x y : NativeType} : x.Twins y → Job.Twins (.declare name x) (.declare name y)

inductive Plan.Twins : Plan → Plan → Prop where
  | leaf (u : Marshalled) : Plan.Twins (.leaf u) (.leaf u)
  | inner {x y : Site} (wrap : Marshalled → Marshalled) : x.Twins y → Plan.Twins (.inner x wrap) (.inner y wrap)
  | body (name : String) {x y : NativeType} : x.Twins y → Plan.Twins (.body name x) (.body name y)

theorem Plan.Twins.ite {p : Prop} [Decidable p] {a b a' b' : Plan} (h : a.Twins a') (h' : b.Twins b') :
    (if p then a else b).Twins (if p then a' else b') := by
  split
  · exact h
  · exact h'

variable {o : EmitOptions} {s t : Store} {x y : NativeType} {place : String}

theorem referencePlan_twins (h : x.Twins y) (position : Position) :
    (referencePlan x place position).Twins (referencePlan y place position) := by
  cases position with
  | parameter declared => exact .inner _ ⟨h, rfl, rfl⟩
  | field => exact .leaf _
  | result => exact .leaf _

theorem pointerPlan_twins (hst : s.Agrees t) (h : x.Twins y) (position : Position) :
    (pointerPlan s x position place).Twins (pointerPlan t y position place) := by
  have hcanonical := hst.canonical h
  have hrecord := hcanonical.isRecord_eq
  have hconst := hcanonical.isConst
  have hdenoted := hcanonical.denoted
  have hreference : (referencePlan x place position).Twins (referencePlan y place position) :=
    referencePlan_twins h position
  unfold pointerPlan
  dsimp only
  rw [hrecord, hconst]
  generalize (x.canonical s).denoted = z at hdenoted
  generalize (y.canonical t).denoted = z' at hdenoted
  cases hdenoted with
  | builtin b =>
    refine .ite (.leaf _) (.ite ?_ hreference)
    cases position <;> exact .leaf _
  | unresolved name => exact .leaf _
  | cycle name => exact .leaf _
  | definition hd =>
    cases position with
    | field => exact .ite (.inner _ ⟨h, rfl, rfl⟩) (.leaf _)
    | parameter _ => exact hreference
    | result => exact hreference
  | structural hd =>
    cases position with
    | field => exact .ite (.inner _ ⟨h, rfl, rfl⟩) (.leaf _)
    | parameter _ => exact hreference
    | result => exact hreference

theorem arraySize?_eq (hst : s.Agrees t) (length : Option ArrayLength) :
    arraySize? o s length = arraySize? o t length := by
  unfold arraySize?
  cases length with
  | none => rfl
  | some length =>
    cases length with
    | fixed n => rfl
    | constant name =>
      dsimp only
      rw [hst.bound]

theorem arrayPlan_twins (hst : s.Agrees t) (h : x.Twins y) (size : Option Managed.ConstantExpr) :
    (arrayPlan s x place size).Twins (arrayPlan t y place size) := by
  unfold arrayPlan
  rw [(hst.canonical h).builtin?_eq]
  cases size with
  | none => exact .leaf _
  | some size =>
    dsimp only
    split
    · exact .leaf _
    · exact .inner _ ⟨h, rfl, rfl⟩

theorem NativeType.Twins.tag_eq (h : x.Twins y) : x.tag = y.tag := by
  have hhead := h.head
  cases x <;> cases y <;> first
    | exact absurd hhead id
    | rfl
    | exact hhead.2.1
    | exact (Enumeration.same_iff.mp hhead).1
    | exact hhead.1

theorem NativeType.Twins.isBody_eq (h : x.Twins y) : x.isBody = y.isBody := by
  have hhead := h.head
  cases x <;> cases y <;> first
    | exact absurd hhead id
    | rfl

theorem Site.Twins.plan (hst : s.Agrees t) {x y : Site} (h : x.Twins y) : (x.plan o s).Twins (y.plan o t) := by
  obtain ⟨x, position, place⟩ := x
  obtain ⟨y, position', place'⟩ := y
  obtain ⟨htype, hposition, hplace⟩ := h
  dsimp only at htype hposition hplace
  subst hposition hplace
  have hcanonical := hst.canonical htype
  have hdenoted := hcanonical.denoted
  generalize hx : (x.canonical s).denoted = z at hdenoted
  generalize hy : (y.canonical t).denoted = z' at hdenoted
  cases hdenoted with
  | builtin b =>
    simp only [Site.plan, Site.canonical, hx, hy]
    exact .leaf _
  | unresolved name =>
    simp only [Site.plan, Site.canonical, hx, hy]
    exact .leaf _
  | cycle name =>
    simp only [Site.plan, Site.canonical, hx, hy]
    exact .leaf _
  | definition hd =>
    rw [Site.plan_of_definition (x := ⟨x, position, place⟩) hx, Site.plan_of_definition (x := ⟨y, position, place⟩) hy,
      hd.name_eq]
    exact .body _ hd
  | @structural z z' hz =>
    cases hbody : z.isBody with
    | true =>
      rw [Site.plan_of_body (x := ⟨x, position, place⟩) hx hbody,
        Site.plan_of_body (x := ⟨y, position, place⟩) hy (hz.isBody_eq ▸ hbody), hz.tag_eq, Site.canonical,
        Site.canonical, hcanonical.owner]
      exact .body _ hz
    | false =>
      have hhead := hz.head
      have hchildren := hz.children
      simp only [Site.plan, Site.canonical, hx, hy]
      cases z <;> cases z' <;> try exact absurd hhead id
      case pointer.pointer => exact pointerPlan_twins hst (List.forall₂_cons.mp hchildren).1 position
      case array.array element rank length element' rank' length' =>
        obtain ⟨rfl, rfl⟩ := hhead
        have helement : element.Twins element' := (List.forall₂_cons.mp hchildren).1
        cases position with
        | field =>
          dsimp only
          rw [arraySize?_eq hst]
          exact arrayPlan_twins hst helement _
        | parameter direction => exact pointerPlan_twins hst helement _
        | result => exact .leaf _
      case builtin.builtin => exact .leaf _
      case synonym.synonym => exact .leaf _
      case named.named => exact .leaf _
      all_goals cases hbody

theorem Job.Twins.plan (hst : s.Agrees t) {j k : Job} (h : j.Twins k) : (j.plan o s).Twins (k.plan o t) := by
  cases h with
  | use hxy => exact hxy.plan hst
  | declare name hxy => exact .body name hxy

theorem fieldSites_twins {ms ns : List (Member NativeType)}
    (h : List.Forall₂ (NativeType.AlikeMembers NativeType.Twins) ms ns) (record : String) (index : Nat) :
    List.Forall₂ Site.Twins (fieldSites record index ms) (fieldSites record index ns) := by
  induction h generalizing index with
  | nil => exact .nil
  | cons hm _ ih =>
    refine .cons ⟨hm.2, rfl, ?_⟩ (ih (index + 1))
    rw [hm.1]

theorem paramSites_twins {ps qs : List (Parameter NativeType)}
    (h : List.Forall₂ (NativeType.AlikeParams NativeType.Twins) ps qs) (method : String) (index : Nat) :
    List.Forall₂ Site.Twins (paramSites method index ps) (paramSites method index qs) := by
  induction h generalizing index with
  | nil => exact .nil
  | cons hp _ ih =>
    obtain ⟨hname, hdirection, htype⟩ := hp
    refine .cons ⟨htype, ?_, ?_⟩ (ih (index + 1))
    · rw [hdirection]
    · rw [hname]

theorem bodySites_twins (h : x.Twins y) (given : String) :
    List.Forall₂ Job.Twins ((bodySites given x).map .use) ((bodySites given y).map .use) := by
  have hsites : List.Forall₂ Site.Twins (bodySites given x) (bodySites given y) := by
    have hhead := h.head
    have hchildren := h.children
    cases x <;> cases y <;> try exact absurd hhead id
    case record.record => exact fieldSites_twins (NativeType.Related.alikeMembers_of_map hhead.2.2 hchildren) given 0
    case function.function f g =>
      obtain ⟨hreturns, hparams⟩ := List.forall₂_cons.mp hchildren
      have hps := NativeType.Related.alikeParams_of_map hhead.2.1 hhead.2.2.1 hparams
      exact .cons ⟨hreturns, rfl, rfl⟩ (paramSites_twins hps given 0)
    all_goals exact .nil
  exact List.rel_map (fun _ _ hxy => .use hxy) hsites

theorem fieldsOf_eq {ms ns : List (Member NativeType)} (h : ms.map (·.name) = ns.map (·.name)) (kind : RecordKind)
    (index : Nat) (us : List Marshalled) : fieldsOf kind index ms us = fieldsOf kind index ns us := by
  induction ms generalizing index ns us with
  | nil =>
    obtain rfl := List.map_eq_nil_iff.mp h.symm
    rfl
  | cons m ms ih =>
    cases ns with
    | nil => cases h
    | cons n ns =>
      simp only [List.map_cons, List.cons.injEq] at h
      cases us with
      | nil => rfl
      | cons u us => rw [fieldsOf, fieldsOf, h.1, ih h.2]

theorem paramsOf_eq {ps qs : List (Parameter NativeType)} (hnames : ps.map (·.name) = qs.map (·.name))
    (hdirections : ps.map (·.direction) = qs.map (·.direction)) (index : Nat) (us : List Marshalled) :
    paramsOf index ps us = paramsOf index qs us := by
  induction ps generalizing index qs us with
  | nil =>
    obtain rfl := List.map_eq_nil_iff.mp hnames.symm
    rfl
  | cons p ps ih =>
    cases qs with
    | nil => cases hnames
    | cons q qs =>
      simp only [List.map_cons, List.cons.injEq] at hnames hdirections
      cases us with
      | nil => rfl
      | cons u us => rw [paramsOf, paramsOf, hnames.1, hdirections.1, ih hnames.2 hdirections.2]

def SameValue (p q : String × TypedLiteral) : Prop :=
  p.1 = q.1 ∧ p.2.same q.2 = true

theorem toInt?_of_sameValues {ps qs : List (String × TypedLiteral)} (h : List.Forall₂ SameValue ps qs) :
    (ps.filterMap fun (_, v) => v.literal.toInt?) = qs.filterMap fun (_, v) => v.literal.toInt? := by
  induction h with
  | nil => rfl
  | cons hpq _ ih =>
    simp only [List.filterMap_cons]
    rw [TypedLiteral.toInt?_eq_of_same hpq.2, ih]

theorem enumDecl_same {e e' : Enumeration} (h : e.same e' = true) (given : String) :
    (enumDecl given e).Same (enumDecl given e') := by
  obtain ⟨-, hmembers⟩ := Enumeration.same_iff.mp h
  have hvalues : List.Forall₂ SameValue (e.members.filterMap fun m => m.value.map (m.name, ·))
      (e'.members.filterMap fun m => m.value.map (m.name, ·)) := by
    refine List.rel_filterMap (fun m n hmn => ?_) hmembers
    obtain ⟨hname, -, hvalue⟩ := Enumerator.same_iff.mp hmn
    have hrel := sameOption_iff_rel.mp hvalue
    generalize m.value = v at hrel
    generalize n.value = w at hrel
    cases hrel with
    | none => exact .none
    | some hvw => exact .some ⟨hname, hvw⟩
  unfold enumDecl
  dsimp only
  rw [toInt?_of_sameValues hvalues]
  refine ⟨rfl, rfl, .enumeration _ (List.rel_map (fun p q hpq => ⟨hpq.1, ?_⟩) hvalues)⟩
  dsimp only
  rw [TypedLiteral.narrowedTo?_eq_of_same hpq.2]
  generalize q.2.narrowedTo? _ = narrowed
  cases narrowed with
  | none => exact hpq.2
  | some w => exact TypedLiteral.same_refl w

theorem bodyDecl_same (h : x.Twins y) (given : String) (us : List Marshalled) :
    (bodyDecl o given x us).Same (bodyDecl o given y us) := by
  have hhead := h.head
  cases x <;> cases y <;> try exact absurd hhead id
  case enumeration.enumeration => exact enumDecl_same hhead given
  case record.record =>
    obtain ⟨rfl, -, hnames⟩ := hhead
    refine ⟨rfl, rfl, ?_⟩
    rw [bodyDecl, bodyDecl, fieldsOf_eq hnames]
    exact .refl _
  case function.function f g =>
    obtain ⟨-, hnames, hdirections, hconvention⟩ := hhead
    have hattributes : conventionAttributes o f = conventionAttributes o g := by
      unfold conventionAttributes
      rw [hconvention]
    have hmethod : methodOf given f.params us = methodOf given g.params us := by
      cases us with
      | nil => rfl
      | cons u us => rw [methodOf, methodOf, paramsOf_eq hnames hdirections]
    rw [bodyDecl, bodyDecl, hattributes, hmethod]
    exact ⟨rfl, rfl, .refl _⟩
  all_goals exact ⟨rfl, rfl, .refl _⟩

end HeaderBinding
