import HeaderBinding.Proofs.Emission.Plain

namespace HeaderBinding

def usableBound? (s : Store) : Option ArrayLength → Option String
  | some (.constant name) => if (boundValue? s name).isSome then some name else none
  | _ => none

def Job.bound? (s : Store) : Job → Option String
  | .use x => usableBound? s (x.length? s)
  | .declare _ _ => none

variable {o : EmitOptions} {s t : Store} {d d' final final' : Draft} {j k : Job} {js : List Job} {u v : Marshalled}
  {us vs : List Marshalled} {name : String} {x y : NativeType}

theorem mem_bounds_noteLength_iff {length : Option ArrayLength} :
    name ∈ (noteLength s length d).bounds ↔ name ∈ d.bounds ∨ usableBound? s length = some name := by
  cases length with
  | none => exact (or_iff_left nofun).symm
  | some length =>
    cases length with
    | fixed n => exact (or_iff_left nofun).symm
    | constant bound =>
      by_cases husable : (boundValue? s bound).isSome = true
      · rw [noteLength_of_bound s husable, usableBound?, if_pos husable, Std.HashSet.mem_insert, beq_iff_eq,
          Option.some.injEq, or_comm]
      · rw [noteLength_of_no_bound s husable, usableBound?, if_neg husable]
        exact (or_iff_left nofun).symm

theorem Job.mem_bounds_note_iff : name ∈ (j.note s d).bounds ↔ name ∈ d.bounds ∨ j.bound? s = some name := by
  cases j with
  | declare _ _ => exact (or_iff_left nofun).symm
  | use x => exact mem_bounds_noteLength_iff

theorem Job.bound?_of_body (h : j.plan o s = .body name x) : j.bound? s = none := by
  refine Option.eq_none_iff_forall_ne_some.mpr fun bound hbound => ?_
  have hmem : bound ∈ (j.note s Draft.empty).bounds := mem_bounds_note_iff.mpr (.inr hbound)
  rw [note_of_body h] at hmem
  exact Std.HashSet.not_mem_empty hmem

inductive Settles (o : EmitOptions) (s : Store) (final : Draft) : Job → Marshalled → Prop where
  | leaf {j : Job} {u : Marshalled} : j.plan o s = .leaf u → (∀ name ∈ j.bound? s, name ∈ final.bounds) →
      Settles o s final j u
  | inner {j : Job} {x : Site} {wrap : Marshalled → Marshalled} {u : Marshalled} : j.plan o s = .inner x wrap →
      (∀ name ∈ j.bound? s, name ∈ final.bounds) → Settles o s final (.use x) u → Settles o s final j (wrap u)
  | body {j : Job} {name : String} {t held : NativeType} : j.plan o s = .body name t →
      final.taken[name]? = some held → held.Twins t → Settles o s final j (.plain (.named name))

namespace Settles

theorem notes (h : Settles o s final j u) : ∀ name ∈ j.bound? s, name ∈ final.bounds := by
  cases h with
  | leaf _ hnotes => exact hnotes
  | inner _ hnotes _ => exact hnotes
  | body hplan _ _ =>
    rw [Job.bound?_of_body hplan]
    nofun

theorem eq_of_leaf (h : Settles o s final j u) (hplan : j.plan o s = .leaf v) : u = v := by
  cases h with
  | leaf hplan' _ =>
    cases hplan.symm.trans hplan'
    rfl
  | inner hplan' _ _ => cases hplan.symm.trans hplan'
  | body hplan' _ _ => cases hplan.symm.trans hplan'

theorem of_inner (h : Settles o s final j u) {x : Site} {wrap : Marshalled → Marshalled}
    (hplan : j.plan o s = .inner x wrap) : ∃ v, Settles o s final (.use x) v ∧ u = wrap v := by
  cases h with
  | leaf hplan' _ => cases hplan.symm.trans hplan'
  | inner hplan' _ hx =>
    cases hplan.symm.trans hplan'
    exact ⟨_, hx, rfl⟩
  | body hplan' _ _ => cases hplan.symm.trans hplan'

theorem of_body (h : Settles o s final j u) (hplan : j.plan o s = .body name x) :
    u = .plain (.named name) ∧ ∃ held, final.taken[name]? = some held ∧ held.Twins x := by
  cases h with
  | leaf hplan' _ => cases hplan.symm.trans hplan'
  | inner hplan' _ _ => cases hplan.symm.trans hplan'
  | body hplan' hheld htwins =>
    cases hplan.symm.trans hplan'
    exact ⟨rfl, _, hheld, htwins⟩

theorem unique (h : Settles o s final j u) (h' : Settles o s final' j v) : u = v := by
  induction h generalizing v with
  | leaf hplan _ => exact (h'.eq_of_leaf hplan).symm
  | inner hplan _ _ ih =>
    obtain ⟨w, hw, rfl⟩ := h'.of_inner hplan
    rw [ih hw]
  | body hplan _ _ => exact (h'.of_body hplan).1.symm

end Settles

def DeclaredWith (o : EmitOptions) (s : Store) (final : Draft) (body : NativeType) (t : Managed.TypeDecl) : Prop :=
  ∃ vs, List.Forall₂ (Settles o s final) ((bodySites t.name body).map .use) vs ∧ t = bodyDecl o t.name body vs

namespace Draft

structure Under (d final : Draft) : Prop where
  taken : ∀ (name : String) t, d.taken[name]? = some t → ∃ held, final.taken[name]? = some held ∧ held.Twins t
  bounds : ∀ name ∈ d.bounds, name ∈ final.bounds

def Closed (o : EmitOptions) (s : Store) (final : Draft) : Prop :=
  ∀ (name : String) held, final.taken[name]? = some held →
    ∀ j ∈ (bodySites name held).map Job.use, ∃ u, Settles o s final j u

def Declares (o : EmitOptions) (s : Store) (d final : Draft) : Prop :=
  ∀ t ∈ d.types.toList, ∃ body, final.taken[t.name]? = some body ∧ DeclaredWith o s final body t

theorem Declares.congr (h : d.Declares o s final) (htypes : d'.types = d.types) : d'.Declares o s final := by
  unfold Declares
  rw [htypes]
  exact h

end Draft

theorem Site.Twins.length?_eq (hst : s.Agrees t) {x y : Site} (h : x.Twins y) : x.length? s = y.length? t := by
  have hdenoted := (hst.canonical h.type).denoted
  unfold Site.length? Site.canonical
  rw [h.position]
  generalize (x.type.canonical s).denoted = z at hdenoted
  generalize (y.type.canonical t).denoted = z' at hdenoted
  cases hdenoted with
  | @structural z z' hz =>
    have hhead := hz.head
    cases z <;> cases z' <;> try exact absurd hhead id
    case array.array element rank length element' rank' length' =>
      obtain ⟨rfl, rfl⟩ := hhead
      cases y.position <;> rfl
    all_goals rfl
  | _ => rfl

theorem Job.Twins.bound?_eq (hst : s.Agrees t) (h : j.Twins k) : j.bound? s = k.bound? t := by
  cases h with
  | declare _ _ => rfl
  | @use x y hxy =>
    have hlength : usableBound? s (x.length? s) = usableBound? t (y.length? t) := by
      unfold usableBound?
      rw [hxy.length?_eq hst]
      simp only [hst.bound]
    exact hlength

namespace Settles

theorem twins (hst : s.Agrees t) (h : Settles o s final j u) (hjk : j.Twins k) : Settles o t final k u := by
  induction h generalizing k with
  | leaf hplan hnotes =>
    have htwins := hjk.plan hst (o := o)
    rw [hplan] at htwins
    generalize hk : k.plan o t = plan at htwins
    cases htwins
    exact .leaf hk (hjk.bound?_eq hst ▸ hnotes)
  | inner hplan hnotes _ ih =>
    have htwins := hjk.plan hst (o := o)
    rw [hplan] at htwins
    generalize hk : k.plan o t = plan at htwins
    cases htwins with
    | inner _ hx => exact .inner hk (hjk.bound?_eq hst ▸ hnotes) (ih (.use hx))
  | body hplan hheld hbody =>
    have htwins := hjk.plan hst (o := o)
    rw [hplan] at htwins
    generalize hk : k.plan o t = plan at htwins
    cases htwins with
    | body _ ht => exact .body hk hheld (hbody.trans ht)

theorem forall₂_eq (hst : s.Agrees t) {ks : List Job} (hjks : List.Forall₂ Job.Twins js ks)
    (h : List.Forall₂ (Settles o s final) js us) (h' : List.Forall₂ (Settles o t final') ks vs) : us = vs := by
  induction hjks generalizing us vs with
  | nil =>
    cases h
    cases h'
    rfl
  | cons hjk _ ih =>
    cases h with
    | cons hu hus =>
      cases h' with
      | cons hv hvs => rw [(hu.twins hst hjk).unique hv, ih hus hvs]

end Settles

theorem Draft.Closed.twins (hst : s.Agrees t) (h : final.Closed o s) : final.Closed o t := by
  intro name held hheld k hk
  obtain ⟨j, hj, hjk⟩ := exists_of_forall₂_right (bodySites_twins (.refl held) name) hk
  obtain ⟨u, hu⟩ := h name held hheld j hj
  exact ⟨u, hu.twins hst hjk⟩

theorem Store.Agrees.refl (s : Store) : s.Agrees s where
  node k := by
    cases s.node? k with
    | none => exact .none
    | some n =>
      cases n with
      | synonym d => exact .some (.synonym ⟨rfl, .refl _⟩)
      | definition d => exact .some (.definition (NativeType.Twins.refl _))
  bound _ := rfl

theorem Draft.Closed.body (h : final.Closed o s) {held : NativeType} (hheld : final.taken[name]? = some held)
    (htwins : held.Twins x) : ∀ j ∈ (bodySites name x).map Job.use, ∃ u, Settles o s final j u := by
  intro k hk
  obtain ⟨j, hj, hjk⟩ := exists_of_forall₂_right (bodySites_twins htwins name) hk
  obtain ⟨u, hu⟩ := h name held hheld j hj
  exact ⟨u, hu.twins (.refl s) hjk⟩

theorem Draft.Closed.standsFor (h : final.Closed o s) (hasks : j.Asks o s name x) (hj : ∃ u, Settles o s final j u) :
    final.taken.StandsFor name x := by
  induction hasks with
  | body hplan =>
    obtain ⟨u, hu⟩ := hj
    obtain ⟨-, held, hheld, htwins⟩ := hu.of_body hplan
    exact ⟨held, hheld, htwins.same⟩
  | inner hplan _ ih =>
    obtain ⟨u, hu⟩ := hj
    obtain ⟨v, hv, -⟩ := hu.of_inner hplan
    exact ih ⟨v, hv⟩
  | member hplan hx _ ih =>
    obtain ⟨u, hu⟩ := hj
    obtain ⟨-, held, hheld, htwins⟩ := hu.of_body hplan
    exact ih (h.body hheld htwins _ (List.mem_map_of_mem hx))

namespace Draft.Under

theorem note (hd : d.Under final) (hnotes : ∀ name ∈ j.bound? s, name ∈ final.bounds) : (j.note s d).Under final where
  taken := by
    rw [Job.taken_note]
    exact hd.taken
  bounds name hname := (Job.mem_bounds_note_iff.mp hname).elim (hd.bounds name) (hnotes name)

theorem enter (hd : d.Under final) {held : NativeType} (hheld : final.taken[name]? = some held)
    (htwins : held.Twins x) : ((d.take name x).enter name x).Under final where
  taken other body hbody := by
    rw [Draft.taken_enter, take, Std.HashMap.getElem?_insert] at hbody
    split at hbody
    · rename_i heq
      cases hbody
      exact eq_of_beq heq ▸ ⟨held, hheld, htwins⟩
    · exact hd.taken other body hbody
  bounds := by
    rw [bounds_enter]
    exact hd.bounds

end Draft.Under

namespace PlainRuns

theorem mem_bounds (h : PlainRuns o s d js us d') : ∀ name ∈ d.bounds, name ∈ d'.bounds := by
  induction h with
  | nil d => exact fun _ h => h
  | leaf _ _ ih => exact fun name hname => ih name (Job.mem_bounds_note hname)
  | inner _ _ _ ihx ih => exact fun name hname => ih name (ihx name (Job.mem_bounds_note hname))
  | held _ _ _ _ ih => exact ih
  | @fresh d d₂ d' j js name t vs us _ _ _ _ ihbody ih =>
    intro bound hbound
    refine ih bound ?_
    rw [Draft.bounds_declare_leave]
    refine ihbody bound ?_
    rwa [Draft.bounds_enter]

theorem settles (h : PlainRuns o s d js us d') (htaken : d'.taken.Within final.taken)
    (hbounds : ∀ name ∈ d'.bounds, name ∈ final.bounds) :
    List.Forall₂ (Settles o s final) js us ∧ (d.Declares o s final → d'.Declares o s final) := by
  induction h with
  | nil d => exact ⟨.nil, id⟩
  | @leaf d d' j js u us hplan hrest ih =>
    obtain ⟨hus, hdeclares⟩ := ih htaken hbounds
    refine ⟨.cons (.leaf hplan fun name hname => ?_) hus, fun hd => hdeclares (hd.congr (j.types_note s d))⟩
    exact hbounds name (hrest.mem_bounds name (Job.mem_bounds_note_iff.mpr (.inr hname)))
  | @inner d d₁ d' j js x wrap u us hplan hx hrest ihx ih =>
    obtain ⟨hus, hdeclares⟩ := ih htaken hbounds
    have hbounds₁ : ∀ name ∈ d₁.bounds, name ∈ final.bounds := fun name hname =>
      hbounds name (hrest.mem_bounds name hname)
    obtain ⟨hu, hdeclares₁⟩ := ihx (hrest.runs.grows.1.trans htaken) hbounds₁
    refine ⟨.cons (.inner hplan (fun name hname => ?_) (List.forall₂_cons.mp hu).1) hus,
      fun hd => hdeclares (hdeclares₁ (hd.congr (j.types_note s d)))⟩
    exact hbounds₁ name (hx.mem_bounds name (Job.mem_bounds_note_iff.mpr (.inr hname)))
  | held hplan hheld htwins hrest ih =>
    obtain ⟨hus, hdeclares⟩ := ih htaken hbounds
    exact ⟨.cons (.body hplan (htaken _ _ (hrest.runs.grows.1 _ _ hheld)) htwins) hus, hdeclares⟩
  | @fresh d d₂ d' j js name t vs us hplan hfree hbody hrest ihbody ih =>
    obtain ⟨hus, hdeclares⟩ := ih htaken hbounds
    have hwithin : d₂.taken.Within final.taken := by
      have hgrows := hrest.runs.grows
      rw [Draft.taken_declare_leave] at hgrows
      exact hgrows.1.trans htaken
    have hbounds₂ : ∀ name ∈ d₂.bounds, name ∈ final.bounds := by
      intro bound hbound
      refine hbounds bound (hrest.mem_bounds bound ?_)
      rwa [Draft.bounds_declare_leave]
    obtain ⟨hvs, hdeclares₂⟩ := ihbody hwithin hbounds₂
    have hgiven : final.taken[name]? = some t := by
      refine hwithin _ _ (hbody.runs.grows.1 _ _ ?_)
      rw [Draft.taken_enter]
      exact Std.HashMap.getElem?_insert_self
    refine ⟨.cons (.body hplan hgiven (.refl t)) hus, fun hd => hdeclares fun t' ht' => ?_⟩
    rw [Draft.declare, Array.toList_push, Draft.types_leave] at ht'
    rcases List.mem_append.mp ht' with ht' | ht'
    · exact hdeclares₂ (hd.congr (Draft.types_enter ..)) t' ht'
    · obtain rfl := List.mem_singleton.mp ht'
      refine ⟨t, ?_, vs, ?_, ?_⟩ <;> rw [name_bodyDecl]
      · exact hgiven
      · exact hvs

theorem under (h : PlainRuns o s d js us d') (hclosed : final.Closed o s)
    (hjs : ∀ j ∈ js, ∃ u, Settles o s final j u) (hd : d.Under final) : d'.Under final := by
  induction h with
  | nil d => exact hd
  | leaf _ _ ih =>
    obtain ⟨⟨u, hj⟩, hjs⟩ := List.forall_mem_cons.mp hjs
    exact ih hjs (hd.note hj.notes)
  | inner hplan _ _ ihx ih =>
    obtain ⟨⟨u, hj⟩, hjs⟩ := List.forall_mem_cons.mp hjs
    obtain ⟨v, hv, -⟩ := hj.of_inner hplan
    exact ih hjs (ihx (List.forall_mem_singleton.mpr ⟨v, hv⟩) (hd.note hj.notes))
  | held _ _ _ _ ih => exact ih (List.forall_mem_cons.mp hjs).2 hd
  | @fresh d d₂ d' j js name t vs us hplan hfree _ _ ihbody ih =>
    obtain ⟨⟨u, hj⟩, hjs⟩ := List.forall_mem_cons.mp hjs
    obtain ⟨-, held, hheld, htwins⟩ := hj.of_body hplan
    have hd₂ := ihbody (hclosed.body hheld htwins) (hd.enter hheld htwins)
    refine ih hjs ⟨?_, ?_⟩
    · rw [Draft.taken_declare_leave]
      exact hd₂.taken
    · rw [Draft.bounds_declare_leave]
      exact hd₂.bounds

end PlainRuns

def Draft.missing (final d : Draft) : Nat :=
  final.taken.keys.countP fun name => !d.taken.contains name

theorem Draft.missing_lt (h : d.taken.Within d'.taken) (hname : name ∈ final.taken) (hbefore : name ∉ d.taken)
    (hafter : name ∈ d'.taken) : final.missing d' < final.missing d := by
  refine Store.countP_lt_countP (Std.HashMap.mem_keys.mpr hname) (fun other _ hother => ?_) ?_ ?_
  · simp only [Bool.not_eq_true', Std.HashMap.contains_eq_false_iff_not_mem] at hother ⊢
    exact fun hmem => hother (h.mem hmem)
  · simpa using hafter
  · simpa using hbefore

theorem exists_plainRuns_of_each (hclosed : final.Closed o s) (hjs : ∀ j ∈ js, ∃ u, Settles o s final j u)
    (heach : ∀ j ∈ js, ∀ d' : Draft, d.taken.Within d'.taken → d'.Under final →
      ∃ u d'', PlainRuns o s d' [j] [u] d'') (hd : d.Under final) : ∃ us d', PlainRuns o s d js us d' := by
  have hfrom : ∀ d' : Draft, d.taken.Within d'.taken → d'.Under final → ∃ us d'', PlainRuns o s d' js us d'' := by
    induction js with
    | nil => exact fun d' _ _ => ⟨[], d', .nil d'⟩
    | cons j js ih =>
      rw [List.forall_mem_cons] at hjs heach
      intro d' hwithin hd'
      obtain ⟨u, d₁, hu⟩ := heach.1 d' hwithin hd'
      have hd₁ := hu.under hclosed (List.forall_mem_singleton.mpr hjs.1) hd'
      obtain ⟨us, d₂, hus⟩ := ih hjs.2 heach.2 d₁ (hwithin.trans hu.runs.grows.1) hd₁
      exact ⟨u :: us, d₂, hu.append hus⟩
  exact hfrom d (.refl _) hd

theorem exists_plainRuns (hclosed : final.Closed o s) (hjs : ∀ j ∈ js, ∃ u, Settles o s final j u)
    (hd : d.Under final) : ∃ us d', PlainRuns o s d js us d' := by
  -- The fewer names are to be taken, the sooner it ends; else it is by how the jobs are settled.
  suffices hall : ∀ m, ∀ d : Draft, final.missing d ≤ m → d.Under final → ∀ j u, Settles o s final j u →
      ∃ u d', PlainRuns o s d [j] [u] d' by
    refine exists_plainRuns_of_each hclosed hjs (fun j hj d' _ hd' => ?_) hd
    obtain ⟨u, hu⟩ := hjs j hj
    exact hall _ d' (Nat.le_refl _) hd' j u hu
  intro m
  induction m using Nat.strongRecOn with
  | ind m ihm =>
    intro d hmissing hd j u hj
    induction hj generalizing d with
    | @leaf j u hplan _ => exact ⟨u, _, .leaf hplan (.nil _)⟩
    | @inner j x wrap u hplan hnotes _ ih =>
      have hmissing' : final.missing (j.note s d) ≤ m := by
        rwa [Draft.missing, Job.taken_note]
      obtain ⟨v, d', hv⟩ := ih _ hmissing' (hd.note hnotes)
      exact ⟨wrap v, d', .inner hplan hv (.nil _)⟩
    | @body j name t held hplan hheld htwins =>
      by_cases hname : name ∈ d.taken
      · obtain ⟨other, hother⟩ := Option.isSome_iff_exists.mp (Std.HashMap.mem_iff_isSome_getElem?.mp hname)
        obtain ⟨held', hheld', htwins'⟩ := hd.taken name other hother
        obtain rfl := Option.some.inj (hheld'.symm.trans hheld)
        exact ⟨_, _, .held hplan hother (htwins'.symm.trans htwins) (.nil _)⟩
      · have hentered : ((d.take name t).enter name t).taken = d.taken.insert name t := Draft.taken_enter ..
        have hwithin : d.taken.Within ((d.take name t).enter name t).taken :=
          hentered ▸ Taken.within_insert hname t
        have hmem : name ∈ ((d.take name t).enter name t).taken := hentered ▸ Std.HashMap.mem_insert_self
        have hsites := hclosed.body hheld htwins
        obtain ⟨vs, d₂, hvs⟩ := exists_plainRuns_of_each hclosed hsites (fun k hk d' hd' hunder' => by
          obtain ⟨v, hv⟩ := hsites k hk
          have hlt := Draft.missing_lt (hwithin.trans hd') (Taken.mem_of_eq hheld) hname (hd'.mem hmem)
          exact ihm _ (Nat.lt_of_lt_of_le hlt hmissing) d' (Nat.le_refl _) hunder' k v hv) (hd.enter hheld htwins)
        exact ⟨_, _, .fresh hplan hname hvs (.nil _)⟩

end HeaderBinding
