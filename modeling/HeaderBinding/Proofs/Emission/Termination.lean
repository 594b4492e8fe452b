import HeaderBinding.Proofs.Emission.Complete
import Mathlib.Order.WellFounded
import Mathlib.Data.Fintype.Order
import Mathlib.Data.Set.Finite.Basic
import Mathlib.Data.Set.Finite.List

namespace HeaderBinding

variable {o : EmitOptions} {s : Store} {d d' : Draft} {j : Job} {js : List Job}
  {bodies : List (String × NativeType)}

inductive Needs (o : EmitOptions) (s : Store) (bodies : List (String × NativeType)) : Job → Job → Prop where
  | inner {j : Job} {x : Site} {wrap : Marshalled → Marshalled} : j.plan o s = .inner x wrap →
      Needs o s bodies (.use x) j
  | member {j : Job} {x : Site} {name given : String} {t : NativeType} : j.plan o s = .body name t →
      (name, t) ∉ bodies → x ∈ bodySites given t → Needs o s bodies (.use x) j

open Classical in
noncomputable def unclaimed (bodies : List (String × NativeType)) (taken : Taken) : Nat :=
  bodies.countP fun b => ¬taken.Holds b.1 b.2

theorem unclaimed_le {taken taken' : Taken} (h : taken.Grows taken') :
    unclaimed bodies taken' ≤ unclaimed bodies taken := by
  classical
  refine List.countP_mono_left fun b _ hb => ?_
  simp only [decide_eq_true_eq] at hb ⊢
  exact fun hholds => hb (hholds.grows h)

theorem unclaimed_lt {taken taken' : Taken} (h : taken.Grows taken') {name : String} {t : NativeType}
    (hmem : (name, t) ∈ bodies) (hbefore : ¬taken.Holds name t) (hafter : taken'.Holds name t) :
    unclaimed bodies taken' < unclaimed bodies taken := by
  classical
  refine Store.countP_lt_countP hmem (fun b _ hb => ?_) (by simpa using hafter) (by simpa using hbefore)
  simp only [decide_eq_true_eq] at hb ⊢
  exact fun hholds => hb (hholds.grows h)

theorem exists_runs_of_each (hjs : ∀ j ∈ js, ∀ d' : Draft, d.taken.Grows d'.taken → ∃ u d'', Runs o s d' [j] [u] d'') :
    ∃ us d', Runs o s d js us d' := by
  have hfrom : ∀ d' : Draft, d.taken.Grows d'.taken → ∃ us d'', Runs o s d' js us d'' := by
    induction js with
    | nil => exact fun d' _ => ⟨[], d', .nil d'⟩
    | cons j js ih =>
      obtain ⟨hj, hjs⟩ := List.forall_mem_cons.mp hjs
      intro d' hd'
      obtain ⟨u, d₁, hu⟩ := hj d' hd'
      obtain ⟨us, d₂, hus⟩ := ih hjs d₁ (hd'.trans hu.grows)
      exact ⟨u :: us, d₂, hu.append hus⟩
  exact hfrom d (.refl _)

theorem exists_run (ok : Job → Prop) (bodies : List (String × NativeType))
    (hinner : ∀ {j x wrap}, ok j → j.plan o s = .inner x wrap → ok (.use x))
    (hbody : ∀ {j name t}, ok j → j.plan o s = .body name t → ∀ given, ∀ x ∈ bodySites given t, ok (.use x))
    (hacc : ∀ j, ok j → Acc (Needs o s bodies) j) (hjs : ∀ j ∈ js, ok j) (d : Draft) :
    ∃ us d', Runs o s d js us d' := by
  -- The fewer of the listed bodies are without a name, the sooner it ends; else it is by what jobs need.
  suffices hall : ∀ m, ∀ j, ok j → ∀ d : Draft, unclaimed bodies d.taken ≤ m → ∃ u d', Runs o s d [j] [u] d' from
    exists_runs_of_each fun j hj d' _ => hall _ j (hjs j hj) d' (Nat.le_refl _)
  intro m
  induction m using Nat.strongRecOn with
  | ind m ihm =>
    intro j hj
    induction hacc j hj with
    | intro j _ ihj =>
      intro d hd
      cases hplan : j.plan o s with
      | leaf u => exact ⟨u, _, .leaf hplan (.nil _)⟩
      | inner x wrap =>
        have hnote : unclaimed bodies (j.note s d).taken ≤ m := by rwa [Job.taken_note]
        obtain ⟨u, d', hu⟩ := ihj (.use x) (.inner hplan) (hinner hj hplan) (j.note s d) hnote
        exact ⟨wrap u, d', .inner hplan hu (.nil _)⟩
      | body name t =>
        rcases hclaim : Draft.claim name t d with ⟨⟨given, isNew⟩, d₁⟩
        cases isNew with
        | false =>
          obtain rfl := Draft.claim_held hclaim
          exact ⟨_, _, .held hplan hclaim (.nil _)⟩
        | true =>
          have hgrows := (Draft.claim_spec name t d).1
          have hafter := Draft.holds_claim name t d
          rw [hclaim] at hgrows hafter
          have hsites : ∃ vs d₂, Runs o s (d₁.enter given t) ((bodySites given t).map .use) vs d₂ := by
            refine exists_runs_of_each fun j' hj' d' hd' => ?_
            obtain ⟨x, hx, rfl⟩ := List.mem_map.mp hj'
            rw [Draft.taken_enter] at hd'
            have hok := hbody hj hplan given x hx
            by_cases hmem : (name, t) ∈ bodies
            · have hbefore : ¬d.taken.Holds name t := by
                intro hholds
                obtain ⟨_, hheld⟩ := Draft.claim_of_holds hholds
                cases hclaim.symm.trans hheld
              have hlt := unclaimed_lt (hgrows.trans hd') hmem hbefore (hafter.grows hd')
              exact ihm _ (Nat.lt_of_lt_of_le hlt hd) (.use x) hok d' (Nat.le_refl _)
            · exact ihj (.use x) (.member hplan hmem hx) hok d' (Nat.le_trans (unclaimed_le (hgrows.trans hd')) hd)
          obtain ⟨vs, d₂, hvs⟩ := hsites
          exact ⟨_, _, .fresh hplan hclaim hvs (.nil _)⟩

inductive Enters (o : EmitOptions) (s : Store) : NativeType × Position → NativeType × Position → Prop where
  | inner {x y : Site} {wrap : Marshalled → Marshalled} : x.plan o s = .inner y wrap →
      Enters o s (x.type, x.position) (y.type, y.position)
  | member {x y : Site} {t : NativeType} {given : String} : (x.canonical s).denoted = .structural t →
      t.isBody = true → t.tag = "" → (x.canonical s).owner = none → y ∈ bodySites given t →
      Enters o s (x.type, x.position) (y.type, y.position)

def Plan.body? : Plan → Option (String × NativeType)
  | .body name t => some (name, t)
  | _ => none

namespace Store

def Acyclic (o : EmitOptions) (s : Store) : Prop :=
  ∀ t ∈ s.parts, ∀ position, ¬Relation.TransGen (Enters o s) (t, position) (t, position)

def namedBodies (o : EmitOptions) (s : Store) : List (String × NativeType) :=
  s.bodyJobs.filterMap (fun j => (j.plan o s).body?) ++
    s.parts.filterMap fun t => (Site.plan o s ⟨t, .field, ""⟩).body?

theorem covers_of_enters {n m : NativeType × Position} (h : Enters o s n m) (hn : s.Covers n.1) : s.Covers m.1 := by
  cases h with
  | @inner x y wrap hplan =>
    have hover := s.closed_covers.plan (j := .use x) hn (o := o)
    rw [Job.plan, hplan] at hover
    exact hover
  | member ht _ _ _ hy => exact s.closed_covers.structural _ _ hn ht _ (type_mem_of_mem_bodySites hy)

def positions : List Position :=
  [.field, .result, .parameter .input, .parameter .output, .parameter .both]

theorem mem_positions (position : Position) : position ∈ positions := by
  cases position with
  | parameter direction => cases direction <;> decide
  | field => decide
  | result => decide

theorem finite_covered (s : Store) : Finite {n : NativeType × Position // s.Covers n.1} := by
  refine Set.Finite.to_subtype (Set.Finite.subset (List.finite_toSet (s.parts ×ˢ positions)) fun n hn => ?_)
  exact List.mem_product.mpr ⟨Covers.mem_parts hn, mem_positions n.2⟩

theorem acc_enters (h : s.Acyclic o) {n : NativeType × Position} (hn : s.Covers n.1) :
    Acc (fun m n => Enters o s n m) n := by
  let before (m n : {n : NativeType × Position // s.Covers n.1}) : Prop := Relation.TransGen (Enters o s) n.1 m.1
  have hfinite := s.finite_covered
  have htrans : IsTrans _ before := ⟨fun _ _ _ hab hbc => hbc.trans hab⟩
  have hirrefl : Std.Irrefl before := ⟨fun n hcycle => h n.1.1 (Covers.mem_parts n.2) n.1.2 hcycle⟩
  have hwf := Finite.wellFounded_of_trans_of_irrefl before
  suffices hall : ∀ w : {n : NativeType × Position // s.Covers n.1}, Acc (fun m n => Enters o s n m) w.1 from
    hall ⟨n, hn⟩
  intro w
  induction hwf.apply w with
  | intro w _ ih => exact .intro _ fun m hm => ih ⟨m, covers_of_enters hm w.2⟩ (.single hm)

theorem mem_namedBodies_of_bodyJobs {j : Job} (hj : j ∈ s.bodyJobs) {name : String} {t : NativeType}
    (h : j.plan o s = .body name t) : (name, t) ∈ s.namedBodies o :=
  List.mem_append_left _ (List.mem_filterMap.mpr ⟨j, hj, by rw [h]; rfl⟩)

theorem bodyName_of_owner {tag : String} {owner : Option String} (h : tag ≠ "" ∨ owner ≠ none) (place place' : String) :
    bodyName tag owner place = bodyName tag owner place' := by
  unfold bodyName
  split
  · rename_i hempty
    cases owner with
    | none => exact absurd rfl (h.resolve_left fun htag => htag (by simpa using hempty))
    | some name => rfl
  · rfl

theorem enters_of_not_mem_namedBodies {x y : Site} (hx : s.Covers x.type) {name given : String} {t : NativeType}
    (h : x.plan o s = .body name t) (hmem : (name, t) ∉ s.namedBodies o) (hy : y ∈ bodySites given t) :
    Enters o s (x.type, x.position) (y.type, y.position) := by
  have hlisted {name' : String} (hplan : Site.plan o s ⟨x.type, .field, ""⟩ = .body name' t) : name ≠ name' := by
    rintro rfl
    refine hmem (List.mem_append_right _ (List.mem_filterMap.mpr ⟨x.type, hx.mem_parts, ?_⟩))
    rw [hplan]
    rfl
  have hforesees := x.foresees o s
  rw [h] at hforesees
  cases hforesees with
  | definition hd => exact absurd rfl (hlisted (Site.plan_of_definition hd))
  | body ht hbody =>
    by_cases hnamed : t.tag ≠ "" ∨ (x.canonical s).owner ≠ none
    · exact absurd (bodyName_of_owner hnamed _ _) (hlisted (Site.plan_of_body ht hbody))
    · simp only [not_or, ne_eq, Classical.not_not] at hnamed
      exact .member ht hbody hnamed.1 hnamed.2 hy

theorem acc_needs (h : s.Acyclic o) {x : Site} (hx : s.Covers x.type) : Acc (Needs o s (s.namedBodies o)) (.use x) := by
  have hacc := acc_enters h (n := (x.type, x.position)) hx
  generalize hn : (x.type, x.position) = n at hacc
  induction hacc generalizing x with
  | intro n _ ih =>
    subst hn
    refine .intro _ fun j hj => ?_
    cases hj with
    | inner hplan =>
      have henters : Enters o s _ _ := .inner hplan
      exact ih _ henters (covers_of_enters henters hx) rfl
    | member hplan hmem hy =>
      have henters := enters_of_not_mem_namedBodies hx hplan hmem hy
      exact ih _ henters (covers_of_enters henters hx) rfl

def Handles (o : EmitOptions) (s : Store) : Job → Prop
  | .use x => s.Covers x.type
  | .declare name t => (name, t) ∈ s.namedBodies o ∧ ∀ c ∈ t.children, s.Covers c

theorem handles_of_mem_jobs {j : Job} (hj : j ∈ s.jobs) : s.Handles o j := by
  have hover := job_over_covers hj
  cases j with
  | use x => exact hover
  | declare name t =>
    refine ⟨?_, hover⟩
    rcases List.mem_append.mp hj with hj | hj
    · exact mem_namedBodies_of_bodyJobs hj rfl
    · obtain ⟨x, -, hx⟩ := List.mem_map.mp hj
      cases hx

theorem Handles.over {j : Job} (h : s.Handles o j) : j.Over s.Covers := by
  cases j with
  | use x => exact h
  | declare name t => exact h.2

theorem exists_run_of_acyclic (h : s.Acyclic o) (d : Draft) : ∃ us d', Runs o s d s.jobs us d' := by
  refine exists_run (s.Handles o) (s.namedBodies o) ?_ ?_ ?_ (fun j hj => handles_of_mem_jobs hj) d
  · intro j x wrap hj hplan
    have hover := s.closed_covers.plan hj.over (o := o)
    rw [hplan] at hover
    exact hover
  · intro j name t hj hplan given x hx
    have hover := s.closed_covers.plan hj.over (o := o)
    rw [hplan] at hover
    exact hover x.type (type_mem_of_mem_bodySites hx)
  · intro j hj
    cases j with
    | use x => exact acc_needs h hj
    | declare name t =>
      refine .intro _ fun j' hneeds => ?_
      cases hneeds with
      | inner hplan => cases hplan
      | member hplan hmem _ =>
        cases hplan
        exact absurd hj.1 hmem

theorem exists_emit?_of_acyclic (h : s.Acyclic o) : ∃ e, s.emit? o = some e ∧ e.bindings.declared.Nodup := by
  obtain ⟨ws, d, hrun⟩ := exists_run_of_acyclic h .empty
  obtain ⟨us, vs, d₁, rfl, hbodies, -⟩ := hrun.of_append
  refine ⟨_, emit?_eq_some_iff_runs.mpr ⟨us, vs, d, hbodies.length_eq, hrun, rfl⟩, ?_⟩
  have hd := hrun.consistent (fun j hj => job_isProper hj) (Draft.consistent_empty o s)
  rw [Managed.Bindings.declared, types_emission hd]
  exact hd.nodup

def ElementOf (s : Store) (t u : NativeType) : Prop :=
  ∃ rank length, (t.canonical s).denoted = .structural (.array u rank length)

section

variable (htags : ∀ t ∈ s.parts, t.isBody = true → t.tag ≠ "") {n m : NativeType × Position}

include htags

theorem wraps_of_enters (hn : s.Covers n.1) (h : Enters o s n m) :
    m.2 = .field ∧ ∃ z wrap, (n.1.canonical s).denoted = .structural z ∧ Wraps o s z m.1 n.2 wrap := by
  cases h with
  | @inner x y wrap hplan =>
    have hforesees := x.foresees o s
    rw [hplan] at hforesees
    cases hforesees with
    | inner hz _ hwraps => exact ⟨rfl, _, _, hz, hwraps⟩
  | @member x y t given hz hbody htag _ _ =>
    have hparts := (Covers.of_leads (leads_canonicalFrom s .nothing x.type) hn hz).mem_parts
    exact absurd htag (htags t hparts hbody)

theorem not_enters_of_isRecord (hn : s.Covers n.1) (hfield : n.2 = .field)
    (hrecord : (n.1.canonical s).isRecord = true) : ¬Enters o s n m := by
  intro h
  obtain ⟨-, z, wrap, hz, hwraps⟩ := wraps_of_enters htags hn h
  unfold Canonical.isRecord Canonical.record? at hrecord
  rw [hz] at hrecord
  rw [hfield] at hwraps
  cases hwraps <;> cases hrecord

theorem elementOf_of_enters (hn : s.Covers n.1) (hfield : n.2 = .field) (h : Enters o s n m)
    (hm : ∃ k, Enters o s m k) : s.ElementOf n.1 m.1 := by
  obtain ⟨hmfield, z, wrap, hz, hwraps⟩ := wraps_of_enters htags hn h
  obtain ⟨k, hk⟩ := hm
  rw [hfield] at hwraps
  generalize hu : m.1 = u at hwraps
  cases hwraps with
  | pointer hrecord => exact absurd hk (not_enters_of_isRecord htags (covers_of_enters h hn) hmfield (hu ▸ hrecord))
  | array _ rank _ => exact ⟨rank, _, hz⟩

theorem covers_of_transGen (hn : s.Covers n.1) (h : Relation.TransGen (Enters o s) n m) :
    s.Covers m.1 ∧ m.2 = .field := by
  induction h with
  | single h => exact ⟨covers_of_enters h hn, (wraps_of_enters htags hn h).1⟩
  | tail _ h ih => exact ⟨covers_of_enters h ih.1, (wraps_of_enters htags ih.1 h).1⟩

theorem elementOf_of_transGen (hn : s.Covers n.1) (hfield : n.2 = .field) (h : Relation.TransGen (Enters o s) n m)
    (hm : ∃ k, Enters o s m k) : Relation.TransGen s.ElementOf n.1 m.1 := by
  induction h with
  | single h => exact .single (elementOf_of_enters htags hn hfield h hm)
  | tail hinit h ih =>
    obtain ⟨hcovers, hfield'⟩ := covers_of_transGen htags hn hinit
    exact .tail (ih ⟨_, h⟩) (elementOf_of_enters htags hcovers hfield' h hm)

theorem acyclic_of_tagged (helements : ∀ t ∈ s.parts, ¬Relation.TransGen s.ElementOf t t) : s.Acyclic o := by
  intro t ht position hcycle
  have hcovers : s.Covers t := covers_of_mem_parts ht
  obtain ⟨-, hfield⟩ := covers_of_transGen htags hcovers hcycle
  obtain ⟨k, hk, -⟩ := Relation.TransGen.head'_iff.mp hcycle
  exact helements t ht (elementOf_of_transGen htags hcovers hfield hcycle ⟨k, hk⟩)

end

def nodeType : NativeType :=
  .named ⟨"Node", some (.declaration (.definedType "Node")), .empty⟩

def callback : NativeType :=
  .function ⟨"Callback", .void, [⟨"node", .pointer nodeType, .input⟩], none⟩

def listNode : Definition :=
  .record .struct ⟨"Node", [⟨"next", .pointer nodeType⟩, ⟨"done", callback⟩]⟩

def nodeStore : Store :=
  { empty with definitions := ⟨#[listNode], Table.indexOf [listNode]⟩ }

theorem parts_nodeStore : nodeStore.parts =
    [.pointer nodeType, nodeType, callback, .void, .pointer nodeType, nodeType] := by
  simp [parts, roots, nodeStore, empty, Table.empty, Table.toList, listNode, callback, nodeType, NativeType.void,
    NativeType.visit_eq, NativeType.children, Declaration.roots, Definition.memberTypes]

theorem acyclic_nodeStore (o : EmitOptions) : nodeStore.Acyclic o := by
  refine acyclic_of_tagged ?_ ?_
  · rw [parts_nodeStore]
    decide
  · intro t ht hcycle
    obtain ⟨u, ⟨rank, length, hz⟩, -⟩ := Relation.TransGen.head'_iff.mp hcycle
    have harray := (Covers.of_leads (leads_canonicalFrom _ .nothing t) (covers_of_mem_parts ht) hz).mem_parts
    rw [parts_nodeStore] at harray
    simp [nodeType, callback, NativeType.void] at harray

theorem exists_emit?_nodeStore : nodeStore.Acyclic .standard ∧
    ∃ e, nodeStore.emit? .standard = some e ∧ e.bindings.declared.Nodup :=
  ⟨acyclic_nodeStore .standard, exists_emit?_of_acyclic (acyclic_nodeStore .standard)⟩

def endlessType : NativeType :=
  .named ⟨"T", some (.declaration (.synonym "T")), .empty⟩

def endlessRecord : NativeType :=
  .record .struct ⟨"", [⟨"next", endlessType⟩]⟩

def endlessTypedef : Typedef :=
  ⟨"T", .pointer endlessRecord⟩

def endlessStore : Store :=
  { empty with
    typedefs := ⟨#[endlessTypedef], Table.indexOf [endlessTypedef]⟩
    procedures := ⟨#[⟨"f", .void, [⟨"p", endlessType, .input⟩], none, none⟩], ∅⟩ }

theorem canonical_endlessRecord : endlessRecord.canonical endlessStore = .of (.structural endlessRecord) :=
  NativeType.canonicalFrom_of_isStructural _ .nothing rfl

theorem denoted_endlessType : (endlessType.canonical endlessStore).denoted = .structural (.pointer endlessRecord) := by
  have hindexed : endlessStore.typedefs.Indexed := Table.indexed_indexOf [endlessTypedef] (by decide)
  have hnode : endlessStore.node? (.synonym "T") = some (.synonym endlessTypedef) := by
    unfold node?
    dsimp only [Key.synonym]
    rw [hindexed.get?_eq]
    rfl
  have hleads : Leads endlessStore .nothing endlessType
      (.qualified false ((Canonical.of (.structural (.pointer endlessRecord))).through "T")) :=
    .typedef rfl rfl hnode (.structural _ rfl)
  exact congrArg Canonical.denoted hleads.eq

theorem plan_endlessRecord (position : Position) (place : String) :
    Site.plan o endlessStore ⟨endlessRecord, position, place⟩ = .body place endlessRecord := by
  have hdenoted : (Site.canonical endlessStore ⟨endlessRecord, position, place⟩).denoted = .structural endlessRecord :=
    congrArg Canonical.denoted canonical_endlessRecord
  rw [Site.plan_of_body hdenoted rfl, Site.canonical, canonical_endlessRecord]
  rfl

theorem plan_endlessType {position : Position} (hposition : position ≠ .result) (place : String) :
    ∃ wrap, Site.plan o endlessStore ⟨endlessType, position, place⟩ = .inner ⟨endlessRecord, .field, place⟩ wrap := by
  unfold Site.plan Site.canonical
  rw [denoted_endlessType]
  dsimp only
  unfold pointerPlan
  rw [canonical_endlessRecord]
  cases position with
  | result => exact absurd rfl hposition
  | field => exact ⟨_, rfl⟩
  | parameter direction => exact ⟨_, rfl⟩

theorem claim_of_not_mem {name : String} (h : name ∉ d.taken) (body : NativeType) :
    ∃ diagnostics, Draft.claim name body d =
      ((name, true), { d with taken := d.taken.insert name body, diagnostics := diagnostics }) := by
  have hchoose : Draft.choose d.taken name body 1 (d.taken.size + 1) = (1, true) := by
    rw [Draft.choose]
    have hnone : d.taken[Draft.offer name 1]? = none := Std.HashMap.getElem?_eq_none h
    rw [hnone]
  unfold Draft.claim
  rw [hchoose]
  exact ⟨_, rfl⟩

theorem claim_of_longer {name : String} (h : ∀ taken ∈ d.taken, taken.length < name.length) (body : NativeType) :
    ∃ diagnostics, Draft.claim name body d =
      ((name, true), { d with taken := d.taken.insert name body, diagnostics := diagnostics }) :=
  claim_of_not_mem (fun hmem => Nat.lt_irrefl _ (h name hmem)) body

theorem plan_of_endless {x : Site} (h : x.type = endlessRecord ∨ x.type = endlessType ∧ x.position ≠ .result) :
    x.plan o endlessStore = .body x.place endlessRecord ∨
      ∃ wrap, x.plan o endlessStore = .inner ⟨endlessRecord, .field, x.place⟩ wrap := by
  obtain ⟨t, position, place⟩ := x
  rcases h with rfl | ⟨rfl, hposition⟩
  · exact .inl (plan_endlessRecord position place)
  · exact .inr (plan_endlessType hposition place)

theorem not_runs_endless {us : List Marshalled} (h : Runs o endlessStore d js us d') :
    ¬∃ x rest, js = .use x :: rest ∧ (∀ name ∈ d.taken, name.length < x.place.length) ∧
      (x.type = endlessRecord ∨ x.type = endlessType ∧ x.position ≠ .result) := by
  -- A place that is longer than all names taken is followed by a longer one, so no run ever finishes the first use.
  induction h with
  | nil d => rintro ⟨x, rest, heq, -⟩; cases heq
  | leaf hplan _ _ =>
    rintro ⟨x, rest, heq, -, hx⟩
    cases heq
    rcases plan_of_endless hx with hbody | ⟨wrap, hinner⟩
    · cases hplan.symm.trans hbody
    · cases hplan.symm.trans hinner
  | @inner d d₁ d' j _ _ _ _ _ hplan _ _ ihx _ =>
    rintro ⟨x, rest, heq, htaken, hx⟩
    cases heq
    rcases plan_of_endless hx with hbody | ⟨wrap, hinner⟩
    · cases hplan.symm.trans hbody
    · cases hplan.symm.trans hinner
      refine ihx ⟨⟨endlessRecord, .field, x.place⟩, [], rfl, ?_, .inl rfl⟩
      rwa [Job.taken_note]
  | held hplan hclaim _ _ =>
    rintro ⟨x, rest, heq, htaken, hx⟩
    cases heq
    rcases plan_of_endless hx with hbody | ⟨wrap, hinner⟩
    · cases hplan.symm.trans hbody
      obtain ⟨_, hfresh⟩ := claim_of_longer htaken endlessRecord
      cases hclaim.symm.trans hfresh
    · cases hplan.symm.trans hinner
  | fresh hplan hclaim _ _ ihbody _ =>
    rintro ⟨x, rest, heq, htaken, hx⟩
    cases heq
    rcases plan_of_endless hx with hbody | ⟨wrap, hinner⟩
    · cases hplan.symm.trans hbody
      obtain ⟨_, hfresh⟩ := claim_of_longer htaken endlessRecord
      cases hclaim.symm.trans hfresh
      refine ihbody ⟨⟨endlessType, .field, x.place ++ "_" ++ "next"⟩, [], rfl, fun name hname => ?_, .inr ⟨rfl, nofun⟩⟩
      have hlonger : x.place.length < (x.place ++ "_" ++ "next").length := by
        simp only [String.length_append]
        have hnext : "next".length = 4 := rfl
        omega
      rw [Draft.taken_enter] at hname
      rcases Std.HashMap.mem_insert.mp hname with heq | hname
      · rwa [← eq_of_beq heq]
      · exact Nat.lt_trans (htaken name hname) hlonger
    · cases hplan.symm.trans hinner

theorem emit?_endlessStore (o : EmitOptions) : endlessStore.emit? o = none := by
  refine Option.eq_none_iff_forall_ne_some.mpr fun e he => ?_
  obtain ⟨us, vs, d, -, hrun, -⟩ := emit?_eq_some_iff_runs.mp he
  have hbodies : endlessStore.bodyJobs = [] := by
    have hnone : endlessTypedef.job? endlessStore = none := by
      unfold Typedef.job? NativeType.canonical
      rw [NativeType.canonicalFrom_of_isStructural _ _ rfl]
      rfl
    have hjobs : endlessStore.bodyJobs = [endlessTypedef].filterMap (Typedef.job? endlessStore) := rfl
    rw [hjobs, List.filterMap_cons_none hnone]
    rfl
  have hjobs : endlessStore.jobs =
      [.use ⟨.void, .result, "f_return"⟩] ++ [.use ⟨endlessType, .parameter .input, "f_p"⟩] := by
    rw [jobs, hbodies]
    rfl
  have hvoid : Job.plan o endlessStore (.use ⟨.void, .result, "f_return"⟩) = .leaf (.builtin o .void) :=
    Job.plan_builtin ..
  rw [hjobs] at hrun
  obtain ⟨_, _, d₁, -, hfirst, hrest⟩ := hrun.of_append
  have htaken : d₁.taken = (∅ : Taken) := by
    cases hfirst with
    | leaf hplan hnil =>
      cases hnil
      exact Job.taken_note ..
    | inner hplan _ _ => cases hvoid.symm.trans hplan
    | held hplan _ _ => cases hvoid.symm.trans hplan
    | fresh hplan _ _ _ => cases hvoid.symm.trans hplan
  refine not_runs_endless hrest ⟨_, [], rfl, fun name hname => ?_, .inr ⟨rfl, by decide⟩⟩
  rw [htaken] at hname
  exact absurd hname Std.HashMap.not_mem_empty

end Store

end HeaderBinding
