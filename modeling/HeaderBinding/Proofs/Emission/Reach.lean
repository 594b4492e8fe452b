import HeaderBinding.Proofs.Emission.Outcome
import HeaderBinding.Proofs.Store.Uniform

namespace HeaderBinding

namespace NativeType

def tag : NativeType → String
  | .record _ body => body.name
  | .enumeration e => e.name
  | .function f => f.name
  | _ => ""

def isBody : NativeType → Bool
  | .record _ _ | .enumeration _ | .function _ => true
  | _ => false

end NativeType

section

variable (o : EmitOptions) (s : Store)

inductive Known (length : Option ArrayLength) : Marshalled → Prop where
  | handle : Known length .handle
  | builtin (b : Builtin) : Known length (.builtin o b)
  | string {t : Managed.TypeRef} (b : Builtin) : t.names = [] → Known length (.string t b)
  | characters {size : Managed.ConstantExpr} (b : Builtin) : arraySize? o s length = some size →
      Known length ⟨.string, [sizedAs "ByValTStr" size], none, Marshalled.isWideChar b⟩

inductive Wraps : NativeType → NativeType → Position → (Marshalled → Marshalled) → Prop where
  | reference (z t : NativeType) (declared : Direction) :
      Wraps z t (.parameter declared) fun u => u.element.byReference declared
  | pointer {t : NativeType} : (t.canonical s).isRecord = true →
      Wraps (.pointer t) t .field fun u => .plain (.pointer u.type)
  | array (element : NativeType) (rank : UInt32) {length : Option ArrayLength} {size : Managed.ConstantExpr} :
      arraySize? o s length = some size →
      Wraps (.array element rank length) element .field
        fun u => ⟨.array u.type, [sizedAs "ByValArray" size], none, false⟩

inductive Foresees (x : Site) : Plan → Prop where
  | leaf {u : Marshalled} : Known o s (x.length? s) u → Foresees x (.leaf u)
  | inner {z t : NativeType} {wrap : Marshalled → Marshalled} : (x.canonical s).denoted = .structural z →
      t ∈ z.children → Wraps o s z t x.position wrap → Foresees x (.inner ⟨t, .field, x.place⟩ wrap)
  | definition {d : Definition} : (x.canonical s).denoted = .definition d → Foresees x (.body d.name d.toType)
  | body {t : NativeType} : (x.canonical s).denoted = .structural t → t.isBody = true →
      Foresees x (.body (bodyName t.tag (x.canonical s).owner x.place) t)

end

variable {o : EmitOptions} {s : Store} {x : Site} {z pointee : NativeType}

theorem foresees_ite {p : Prop} [Decidable p] {plan plan' : Plan} (h : Foresees o s x plan)
    (h' : Foresees o s x plan') : Foresees o s x (if p then plan else plan') := by
  split
  · exact h
  · exact h'

theorem foresees_handle : Foresees o s x (.leaf .handle) :=
  .leaf .handle

theorem foresees_reference (hz : (x.canonical s).denoted = .structural z) (hpointee : pointee ∈ z.children) :
    Foresees o s x (referencePlan pointee x.place x.position) := by
  cases hposition : x.position with
  | parameter declared => exact .inner hz hpointee (hposition ▸ .reference z pointee declared)
  | field => exact foresees_handle
  | result => exact foresees_handle

theorem foresees_pointer (hz : (x.canonical s).denoted = .structural z) (hpointee : pointee ∈ z.children)
    (hfield : x.position = .field → z = .pointer pointee) :
    Foresees o s x (pointerPlan s pointee x.position x.place) := by
  have hreference := foresees_reference (o := o) hz hpointee
  unfold pointerPlan
  dsimp only
  split
  · exact foresees_handle
  · exact foresees_handle
  · refine foresees_ite foresees_handle (foresees_ite ?_ hreference)
    split
    · exact .leaf (.string _ (by split <;> rfl))
    · exact .leaf (.string _ rfl)
    · exact foresees_handle
  · rename_i hposition _ _ _
    split
    · rename_i hrecord
      obtain rfl := hfield hposition
      exact .inner hz hpointee (hposition ▸ .pointer hrecord)
    · exact foresees_handle
  · exact hreference

theorem foresees_array {element : NativeType} {rank : UInt32} {length : Option ArrayLength}
    (hz : (x.canonical s).denoted = .structural (.array element rank length)) (hposition : x.position = .field) :
    Foresees o s x (arrayPlan s element x.place (arraySize? o s length)) := by
  have hlength : x.length? s = length := by
    unfold Site.length?
    rw [hz, hposition]
  cases hsize : arraySize? o s length with
  | none => exact foresees_handle
  | some size =>
    unfold arrayPlan
    dsimp only
    split
    · exact .leaf (.characters _ (hlength ▸ hsize))
    · exact .inner hz (List.mem_singleton_self _) (hposition ▸ .array element rank hsize)

theorem Site.foresees (o : EmitOptions) (s : Store) (x : Site) : Foresees o s x (x.plan o s) := by
  cases hdenoted : (x.canonical s).denoted with
  | builtin b =>
    rw [Site.plan, hdenoted]
    exact .leaf (.builtin b)
  | definition d =>
    rw [Site.plan, hdenoted]
    exact .definition hdenoted
  | unresolved name | cycle name =>
    rw [Site.plan, hdenoted]
    exact foresees_handle
  | structural z =>
    rw [Site.plan, hdenoted]
    cases z with
    | pointer pointee => exact foresees_pointer hdenoted (List.mem_singleton_self _) fun _ => rfl
    | array element rank length =>
      dsimp only
      split
      · exact foresees_array hdenoted ‹_›
      · rename_i hposition
        refine foresees_pointer hdenoted (List.mem_singleton_self _) fun hfield => ?_
        cases hfield.symm.trans hposition
      · exact foresees_handle
    | record kind body => exact .body hdenoted rfl
    | enumeration e => exact .body hdenoted rfl
    | function f => exact .body hdenoted rfl
    | _ => exact foresees_handle

namespace Site

theorem plan_of_definition {d : Definition} (h : (x.canonical s).denoted = .definition d) :
    x.plan o s = .body d.name d.toType := by
  rw [plan, h]

theorem plan_of_body {t : NativeType} (h : (x.canonical s).denoted = .structural t) (ht : t.isBody = true) :
    x.plan o s = .body (bodyName t.tag (x.canonical s).owner x.place) t := by
  rw [plan, h]
  cases t with
  | record kind body => rfl
  | enumeration e => rfl
  | function f => rfl
  | _ => cases ht

end Site

structure Store.Closed (s : Store) (p : NativeType → Prop) : Prop where
  structural : ∀ x z : NativeType, p x → (x.canonical s).denoted = .structural z → ∀ c ∈ z.children, p c
  definition : ∀ d ∈ s.definitions.toList, ∀ c ∈ d.toType.children, p c

def Job.Over (p : NativeType → Prop) : Job → Prop
  | .use x => p x.type
  | .declare _ t => ∀ c ∈ t.children, p c

def Plan.Over (p : NativeType → Prop) : Plan → Prop
  | .leaf _ => True
  | .inner x _ => p x.type
  | .body _ t => ∀ c ∈ t.children, p c

variable {p : NativeType → Prop}

theorem Store.Closed.plan (hp : s.Closed p) {j : Job} (hj : j.Over p) : (j.plan o s).Over p := by
  cases j with
  | declare name t => exact hj
  | use x =>
    have hforesees := x.foresees o s
    rw [Job.plan]
    generalize x.plan o s = plan at hforesees
    cases hforesees with
    | leaf _ => trivial
    | inner hz ht _ => exact hp.structural x.type _ hj hz _ ht
    | definition hd => exact hp.definition _ ((leads_canonicalFrom s .nothing x.type).mem_definitions hd)
    | body ht _ => exact hp.structural x.type _ hj ht

theorem type_mem_of_mem_fieldSites {record : String} {index : Nat} {ms : List (Member NativeType)}
    (hx : x ∈ fieldSites record index ms) : x.type ∈ ms.map (·.type) ∧ x.position = .field := by
  induction ms generalizing index with
  | nil => cases hx
  | cons m ms ih =>
    rcases List.mem_cons.mp hx with rfl | hx
    · exact ⟨List.mem_cons_self .., rfl⟩
    · exact ⟨List.mem_cons_of_mem _ (ih hx).1, (ih hx).2⟩

theorem type_mem_of_mem_paramSites {method : String} {index : Nat} {ps : List (Parameter NativeType)}
    (hx : x ∈ paramSites method index ps) : x.type ∈ ps.map (·.type) := by
  induction ps generalizing index with
  | nil => cases hx
  | cons q ps ih =>
    rcases List.mem_cons.mp hx with rfl | hx
    · exact List.mem_cons_self ..
    · exact List.mem_cons_of_mem _ (ih hx)

theorem type_mem_of_mem_methodSites {name : String} {returns : NativeType} {params : List (Parameter NativeType)}
    (hx : x ∈ methodSites name returns params) : x.type ∈ returns :: params.map (·.type) := by
  rcases List.mem_cons.mp hx with rfl | hx
  · exact List.mem_cons_self ..
  · exact List.mem_cons_of_mem _ (type_mem_of_mem_paramSites hx)

theorem type_mem_of_mem_bodySites {given : String} {t : NativeType} (hx : x ∈ bodySites given t) :
    x.type ∈ t.children := by
  cases t with
  | record kind body => exact (type_mem_of_mem_fieldSites hx).1
  | function f => exact type_mem_of_mem_methodSites hx
  | _ => cases hx

theorem over_bodySites {given : String} {t : NativeType} (h : ∀ c ∈ t.children, p c) :
    ∀ j ∈ (bodySites given t).map Job.use, j.Over p := by
  intro j hj
  obtain ⟨x, hx, rfl⟩ := List.mem_map.mp hj
  exact h x.type (type_mem_of_mem_bodySites hx)

theorem NativeType.mem_visit_trans {t u v : NativeType} (htu : u ∈ t.visit) (huv : v ∈ u.visit) : v ∈ t.visit := by
  induction t using children_induction with
  | h t ih =>
    rw [visit_eq] at htu
    rcases List.mem_cons.mp htu with rfl | htu
    · exact huv
    · obtain ⟨c, hc, hcu⟩ := List.mem_flatMap.mp htu
      exact mem_visit_of_child hc (ih c hc hcu)

namespace Store

def parts (s : Store) : List NativeType :=
  s.roots.flatMap NativeType.visit

def Covers (s : Store) (t : NativeType) : Prop :=
  ∀ y ∈ t.visit, y ∈ s.parts

variable {t : NativeType}

theorem covers_of_mem_roots (h : t ∈ s.roots) : s.Covers t :=
  fun _ hy => List.mem_flatMap.mpr ⟨t, h, hy⟩

theorem Covers.child (h : s.Covers t) {c : NativeType} (hc : c ∈ t.children) : s.Covers c :=
  fun y hy => h y (NativeType.mem_visit_of_child hc hy)

theorem Covers.mem_parts (h : s.Covers t) : t ∈ s.parts :=
  h t t.mem_visit_self

theorem covers_of_mem_parts (h : t ∈ s.parts) : s.Covers t := by
  obtain ⟨x, hx, ht⟩ := List.mem_flatMap.mp h
  exact fun y hy => List.mem_flatMap.mpr ⟨x, hx, NativeType.mem_visit_trans ht hy⟩

theorem Covers.of_leads {seen : Seen} {c : Canonical} (h : Leads s seen t c) (ht : s.Covers t)
    (hz : c.denoted = .structural z) : s.Covers z := by
  induction h with
  | structural seen _ =>
    cases hz
    exact ht
  | synonym _ _ ih => exact ih (ht.child (List.mem_singleton_self _)) hz
  | typedef _ _ hk _ ih => exact ih (covers_of_mem_roots (target_mem_roots (typedef_of_node? hk).1)) hz
  | _ => cases hz

theorem closed_covers (s : Store) : s.Closed s.Covers where
  structural x z hx hz c hc := (Covers.of_leads (leads_canonicalFrom s .nothing x) hx hz).child hc
  definition d hd c hc := by
    refine covers_of_mem_roots (mem_roots_of_definition hd ?_)
    cases d with
    | record kind body => exact hc
    | enumeration e => cases hc

theorem job_over_covers {j : Job} (hj : j ∈ s.jobs) : j.Over s.Covers := by
  rcases List.mem_append.mp hj with hj | hj
  · rcases List.mem_append.mp hj with hj | hj
    · obtain ⟨d, hd, rfl⟩ := List.mem_map.mp hj
      exact s.closed_covers.definition d hd
    · obtain ⟨d, hd, hjob⟩ := List.mem_filterMap.mp hj
      have hcovers : ∀ z, (d.target.canonical s).denoted = .structural z → ∀ c ∈ z.children, s.Covers c :=
        fun z hz => s.closed_covers.structural d.target z (covers_of_mem_roots (target_mem_roots hd)) hz
      unfold Typedef.job? at hjob
      dsimp only at hjob
      split at hjob
      · cases hjob
        exact hcovers _ ‹_›
      · cases hjob
        exact hcovers _ ‹_›
      · cases hjob
        exact hcovers _ ‹_›
      · cases hjob
  · obtain ⟨x, hx, rfl⟩ := List.mem_map.mp hj
    obtain ⟨q, hq, hx⟩ := List.mem_flatMap.mp hx
    exact covers_of_mem_roots (mem_roots_of_procedure hq (type_mem_of_mem_methodSites hx))

def bodies (s : Store) : List NativeType :=
  s.definitions.toList.map Definition.toType ++ s.parts

theorem covers_of_mem_bodies (h : t ∈ s.bodies) {c : NativeType} (hc : c ∈ t.children) : s.Covers c := by
  rcases List.mem_append.mp h with h | h
  · obtain ⟨d, hd, rfl⟩ := List.mem_map.mp h
    exact s.closed_covers.definition d hd c hc
  · exact (covers_of_mem_parts h).child hc

def Meets (s : Store) : Job → Prop
  | .use x => s.Covers x.type
  | .declare _ t => t ∈ s.bodies

variable {j : Job} {name : String}

theorem meets_of_mem_jobs (hj : j ∈ s.jobs) : s.Meets j := by
  have hover := job_over_covers hj
  rcases List.mem_append.mp hj with hj | hj
  · rcases List.mem_append.mp hj with hj | hj
    · obtain ⟨d, hd, rfl⟩ := List.mem_map.mp hj
      exact List.mem_append_left _ (List.mem_map_of_mem hd)
    · obtain ⟨d, hd, hjob⟩ := List.mem_filterMap.mp hj
      have hpart : ∀ z, (d.target.canonical s).denoted = .structural z → z ∈ s.bodies := fun z hz =>
        List.mem_append_right _ (Covers.of_leads (leads_canonicalFrom s .nothing d.target)
          (covers_of_mem_roots (target_mem_roots hd)) hz).mem_parts
      unfold Typedef.job? at hjob
      dsimp only at hjob
      split at hjob <;> cases hjob <;> exact hpart _ ‹_›
  · obtain ⟨x, -, rfl⟩ := List.mem_map.mp hj
    exact hover

namespace Meets

theorem inner {wrap : Marshalled → Marshalled} (hj : s.Meets j) (h : j.plan o s = .inner x wrap) :
    s.Meets (.use x) := by
  cases j with
  | declare _ _ => cases h
  | use y =>
    have hover := s.closed_covers.plan (j := .use y) hj (o := o)
    rw [h] at hover
    exact hover

theorem body (hj : s.Meets j) (h : j.plan o s = .body name t) : t ∈ s.bodies := by
  cases j with
  | declare _ _ =>
    cases h
    exact hj
  | use y =>
    have hforesees := y.foresees o s
    rw [Job.plan] at h
    rw [h] at hforesees
    have hleads := leads_canonicalFrom s .nothing y.type
    cases hforesees with
    | definition hd => exact List.mem_append_left _ (List.mem_map_of_mem (hleads.mem_definitions hd))
    | body ht _ => exact List.mem_append_right _ (Covers.of_leads hleads hj ht).mem_parts

end Meets

theorem meets_of_mem_bodySites {given : String} (ht : t ∈ s.bodies) (hj : j ∈ (bodySites given t).map Job.use) :
    s.Meets j := by
  obtain ⟨x, hx, rfl⟩ := List.mem_map.mp hj
  exact covers_of_mem_bodies ht (type_mem_of_mem_bodySites hx)

end Store

theorem Runs.mem_bodies {d d' : Draft} {js : List Job} {us : List Marshalled} (h : Runs o s d js us d')
    (hjs : ∀ j ∈ js, s.Meets j) (hd : ∀ (name : String) t, d.taken[name]? = some t → t ∈ s.bodies) :
    ∀ (name : String) t, d'.taken[name]? = some t → t ∈ s.bodies := by
  induction h with
  | nil d => exact hd
  | @leaf d _ j _ _ _ hplan _ ih =>
    rw [List.forall_mem_cons] at hjs
    exact ih hjs.2 (by rwa [j.taken_note])
  | @inner d _ _ j _ _ _ _ _ hplan _ _ ihx ih =>
    rw [List.forall_mem_cons] at hjs
    refine ih hjs.2 (ihx (List.forall_mem_singleton.mpr (hjs.1.inner hplan)) ?_)
    rwa [j.taken_note]
  | held _ _ _ ih => exact ih (List.forall_mem_cons.mp hjs).2 hd
  | @fresh d d₁ d₂ _ j _ name given body vs us hplan hclaim _ _ ihbody ih =>
    rw [List.forall_mem_cons] at hjs
    have hbody := hjs.1.body hplan
    have hentered : ∀ (name : String) t, (d₁.enter given body).taken[name]? = some t → t ∈ s.bodies := by
      rw [Draft.taken_enter, (Draft.claim_fresh hclaim).1]
      intro name t ht
      rw [Std.HashMap.getElem?_insert] at ht
      split at ht
      · cases ht
        exact hbody
      · exact hd name t ht
    have hleft := ihbody (fun j hj => Store.meets_of_mem_bodySites hbody hj) hentered
    refine ih hjs.2 ?_
    rwa [Draft.taken_declare_leave]

end HeaderBinding
