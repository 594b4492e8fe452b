import HeaderBinding.Proofs.Emission.Settle
import HeaderBinding.Proofs.Managed.Reordered

namespace HeaderBinding

open Managed (TypeDecl Field Method)

structure Store.Reordered (s t : Store) : Prop where
  agrees : s.Agrees t
  typedefs : UpToOrder Typedef.Twins s.typedefs.toList t.typedefs.toList
  definitions : UpToOrder Definition.Twins s.definitions.toList t.definitions.toList
  constants : UpToOrder Constant.Twins s.constants.toList t.constants.toList
  procedures : s.procedures.toList.Perm t.procedures.toList

variable {o : EmitOptions} {s t : Store} {d d' : Draft} {us vs : List Marshalled} {name : String}

theorem Job.Twins.refl (j : Job) : j.Twins j := by
  cases j with
  | use x => exact .use ⟨.refl _, rfl, rfl⟩
  | declare name body => exact .declare name (.refl body)

theorem Definition.Twins.job {x y : Definition} (h : x.Twins y) : x.job.Twins y.job := by
  unfold Definition.job
  rw [h.name_eq]
  exact .declare _ h

theorem Typedef.Twins.job? (hst : s.Agrees t) {x y : Typedef} (h : x.Twins y) :
    Option.Rel Job.Twins (x.job? s) (y.job? t) := by
  obtain ⟨hname, htarget⟩ := h
  obtain ⟨hdenoted, howner, -⟩ := hst.canonical htarget
  unfold Typedef.job?
  dsimp only
  rw [hname, howner]
  generalize (x.target.canonical s).denoted = z at hdenoted
  generalize (y.target.canonical t).denoted = z' at hdenoted
  cases hdenoted with
  | @structural z z' hz =>
    have htag := hz.tag_eq
    have hhead := hz.head
    cases z <;> cases z' <;> try exact absurd hhead id
    case record.record kind body kind' body' =>
      have htag : body.name = body'.name := htag
      exact .some (htag ▸ .declare _ hz)
    case enumeration.enumeration e e' =>
      have htag : e.name = e'.name := htag
      exact .some (htag ▸ .declare _ hz)
    case function.function f f' =>
      have htag : f.name = f'.name := htag
      exact .some (htag ▸ .declare _ hz)
    all_goals exact .none
  | _ => exact .none

namespace Store.Reordered

theorem jobs (h : s.Reordered t) : UpToOrder Job.Twins s.jobs t.jobs := by
  refine .append (.append ?_ ?_) ?_
  · exact h.definitions.map fun _ _ hxy => hxy.job
  · exact h.typedefs.filterMap fun _ _ hxy => hxy.job? h.agrees
  · have hsites : s.methodSites.Perm t.methodSites := h.procedures.flatMap_right _
    exact (UpToOrder.of_perm (hsites.map Job.use)).imp fun j _ k _ hjk => hjk ▸ .refl j

end Store.Reordered

structure Draft.Finishes (o : EmitOptions) (s : Store) (d : Draft) : Prop where
  consistent : d.Consistent o s []
  quiet : d.Quiet
  declares : d.Declares o s d
  jobs : ∀ j ∈ s.jobs, ∃ u, Settles o s d j u

namespace PlainRuns

theorem finishes (h : PlainRuns o s .empty s.jobs us d) : d.Finishes o s := by
  obtain ⟨hus, hdeclares⟩ := h.settles (Taken.Within.refl _) fun _ h => h
  refine ⟨h.runs.consistent (fun j hj => Store.job_isProper hj) (Draft.consistent_empty o s), h.quiet rfl, ?_, ?_⟩
  · exact hdeclares nofun
  · intro j hj
    obtain ⟨u, -, hu⟩ := exists_of_forall₂_left hus hj
    exact ⟨u, hu⟩

end PlainRuns

namespace Draft.Finishes

theorem closed (h : d.Finishes o s) : d.Closed o s := by
  intro name held hheld j hj
  obtain ⟨t, ht, rfl, -⟩ := exists_unique_of_mem_taken h.consistent (Taken.mem_of_eq hheld)
  obtain ⟨body, hbody, vs, hvs, -⟩ := h.declares t ht
  obtain rfl := Option.some.inj (hbody.symm.trans hheld)
  obtain ⟨u, -, hu⟩ := exists_of_forall₂_left hvs hj
  exact ⟨u, hu⟩

theorem jobs_of_reordered (h : d.Finishes o s) (hst : s.Reordered t) : ∀ k ∈ t.jobs, ∃ u, Settles o t d k u := by
  intro k hk
  obtain ⟨j, hj, hjk⟩ := hst.jobs.exists_left hk
  obtain ⟨u, hu⟩ := h.jobs j hj
  exact ⟨u, hu.twins hst.agrees hjk⟩

theorem empty_under (d : Draft) : Draft.empty.Under d where
  taken name t h := by simp [Draft.empty] at h
  bounds name h := absurd h Std.HashSet.not_mem_empty

end Draft.Finishes

structure Draft.Mates (o : EmitOptions) (s t : Store) (d d' : Draft) : Prop where
  left : d.Finishes o s
  right : d'.Finishes o t
  under : d.Under d'
  above : d'.Under d

theorem UpToOrder.symm {α : Type} {R : α → α → Prop} (hR : ∀ a b, R a b → R b a) {as bs : List α}
    (h : UpToOrder R as bs) : UpToOrder R bs as :=
  h.flip.imp fun _ _ _ _ hab => hR _ _ hab

theorem Store.Reordered.symm (h : s.Reordered t) : t.Reordered s where
  agrees := h.agrees.symm
  typedefs := h.typedefs.symm fun _ _ hxy => ⟨hxy.1.symm, hxy.2.symm⟩
  definitions := h.definitions.symm fun _ _ hxy => NativeType.Twins.symm hxy
  constants := h.constants.symm fun _ _ hxy => by
    refine ⟨hxy.1.symm, ?_⟩
    have hvalue := sameOption_symm (fun _ _ => TypedLiteral.same_symm) (sameOption_iff_rel.mpr hxy.2)
    exact sameOption_iff_rel.mp hvalue
  procedures := h.procedures.symm

theorem exists_mate (hst : s.Reordered t) (h : PlainRuns o s .empty s.jobs us d) :
    ∃ vs d', PlainRuns o t .empty t.jobs vs d' ∧ d.Mates o s t d' := by
  have hd := h.finishes
  have hjobs := hd.jobs_of_reordered hst
  have hclosed := hd.closed.twins hst.agrees
  obtain ⟨vs, d', hrun⟩ := exists_plainRuns hclosed hjobs (Draft.Finishes.empty_under d)
  have hd' := hrun.finishes
  refine ⟨vs, d', hrun, hd, hd', ?_, hrun.under hclosed hjobs (Draft.Finishes.empty_under d)⟩
  exact h.under (hd'.closed.twins hst.agrees.symm) (hd'.jobs_of_reordered hst.symm) (Draft.Finishes.empty_under d')

namespace Draft.Mates

theorem mem_taken_iff (h : d.Mates o s t d') : name ∈ d.taken ↔ name ∈ d'.taken := by
  have hmem {d d' : Draft} (h : d.Under d') (hname : name ∈ d.taken) : name ∈ d'.taken := by
    obtain ⟨body, hbody⟩ := Option.isSome_iff_exists.mp (Std.HashMap.mem_iff_isSome_getElem?.mp hname)
    obtain ⟨held, hheld, -⟩ := h.taken name body hbody
    exact Taken.mem_of_eq hheld
  exact ⟨hmem h.under, hmem h.above⟩

theorem types (h : d.Mates o s t d') (hst : s.Agrees t) : UpToOrder TypeDecl.Same d.types.toList d'.types.toList := by
  have hnodup : (d.types.toList.map TypeDecl.name).Nodup := h.left.consistent.nodup
  have hnodup' : (d'.types.toList.map TypeDecl.name).Nodup := h.right.consistent.nodup
  refine .of_names hnodup hnodup' (fun n => ?_) ?_
  · have hiff : n ∈ d.taken ↔ n ∈ d'.taken := h.mem_taken_iff
    rwa [HeaderBinding.mem_taken_iff h.left.consistent, HeaderBinding.mem_taken_iff h.right.consistent] at hiff
  · intro a ha b hb hname
    obtain ⟨body, hbody, vs, hvs, heq⟩ := h.left.declares a ha
    obtain ⟨body', hbody', vs', hvs', heq'⟩ := h.right.declares b hb
    rw [hname] at hbody hvs heq
    obtain ⟨held, hheld, htwins⟩ := h.above.taken b.name body' hbody'
    obtain rfl := Option.some.inj (hheld.symm.trans hbody)
    obtain rfl := Settles.forall₂_eq hst (bodySites_twins htwins b.name) hvs hvs'
    have hsame := bodyDecl_same (o := o) htwins b.name vs
    rwa [← heq, ← heq'] at hsame

theorem contains_bounds (h : d.Mates o s t d') (name : String) : d.bounds.contains name = d'.bounds.contains name := by
  rw [Bool.eq_iff_iff]
  exact ⟨h.under.bounds name, h.above.bounds name⟩

end Draft.Mates

def ImportedWith (o : EmitOptions) (s : Store) (final : Draft) (p : Procedure) (m : Method) : Prop :=
  ∃ us, List.Forall₂ (Settles o s final) (p.sites.map .use) us ∧ m = importedMethod o p us

theorem importedWith_methodsOf {ps : List Procedure}
    (h : List.Forall₂ (Settles o s d) ((ps.flatMap Procedure.sites).map .use) us) :
    List.Forall₂ (ImportedWith o s d) ps (methodsOf o ps us) := by
  induction ps generalizing us with
  | nil => exact .nil
  | cons p ps ih =>
    rw [List.flatMap_cons, List.map_append] at h
    have hfirst := List.forall₂_take (p.sites.map Job.use).length h
    have hrest := List.forall₂_drop (p.sites.map Job.use).length h
    rw [List.take_left, List.length_map] at hfirst
    rw [List.drop_left, List.length_map] at hrest
    exact .cons ⟨_, hfirst, rfl⟩ (ih hrest)

theorem methodsOf_perm (hst : s.Agrees t) {ps qs : List Procedure} (hpq : ps.Perm qs)
    (h : List.Forall₂ (Settles o s d) ((ps.flatMap Procedure.sites).map .use) us)
    (h' : List.Forall₂ (Settles o t d') ((qs.flatMap Procedure.sites).map .use) vs) :
    (methodsOf o ps us).Perm (methodsOf o qs vs) := by
  refine ((UpToOrder.of_perm hpq).transfer (importedWith_methodsOf h) (importedWith_methodsOf h') ?_).perm
  rintro p _ _ _ rfl ⟨us, hus, rfl⟩ ⟨vs, hvs, rfl⟩
  have hsites : List.Forall₂ Job.Twins (p.sites.map .use) (p.sites.map .use) :=
    List.forall₂_same.mpr fun j _ => .refl j
  rw [Settles.forall₂_eq hst hsites hus hvs]

theorem constantField_same (isBound : Bool) (name : String) {v w : TypedLiteral} (h : v.same w = true) :
    (constantField isBound name v).Same (constantField isBound name w) := by
  have hwide : (if isBound then (v.narrowedTo? .int32).getD v else v).same
      (if isBound then (w.narrowedTo? .int32).getD w else w) = true := by
    cases isBound with
    | false => exact h
    | true =>
      rw [if_pos rfl, if_pos rfl, TypedLiteral.narrowedTo?_eq_of_same h]
      cases w.narrowedTo? .int32 with
      | none => exact h
      | some x => exact x.same_refl
  unfold constantField
  dsimp only
  generalize (if isBound then (v.narrowedTo? .int32).getD v else v) = v' at hwide
  generalize (if isBound then (w.narrowedTo? .int32).getD w else w) = w' at hwide
  refine ⟨rfl, ?_, rfl, .some (.literal hwide), rfl⟩
  rw [(TypedLiteral.same_iff.mp hwide).2]

theorem fieldsOfConstants_same {bounds bounds' : Std.HashSet String} {cs cs' : List Constant}
    (hbounds : ∀ name, bounds.contains name = bounds'.contains name) (h : UpToOrder Constant.Twins cs cs') :
    UpToOrder Field.Same (fieldsOfConstants bounds cs) (fieldsOfConstants bounds' cs') := by
  refine h.filterMap fun c c' hcc => ?_
  obtain ⟨hname, hvalue⟩ := hcc
  rw [hname, hbounds]
  generalize c.value = v at hvalue
  generalize c'.value = w at hvalue
  cases hvalue with
  | none => exact .none
  | some hvw => exact .some (constantField_same _ _ hvw)

theorem UpToOrder.isEmpty_eq {α β : Type} {R : α → β → Prop} {as : List α} {bs : List β} (h : UpToOrder R as bs) :
    as.isEmpty = bs.isEmpty := by
  obtain ⟨cs, hcs, hperm⟩ := h
  rw [← hperm.isEmpty_eq]
  cases hcs <;> rfl

theorem container_sameClass (name : String) {fields fields' : List Field} {methods methods' : List Method}
    (hfields : UpToOrder Field.Same fields fields') (hmethods : methods.Perm methods') :
    List.Forall₂ TypeDecl.SameClass (container name fields methods) (container name fields' methods') := by
  unfold container
  rw [hfields.isEmpty_eq, hmethods.isEmpty_eq]
  split
  · exact .nil
  · exact .cons ⟨rfl, rfl, hfields, hmethods⟩ .nil

theorem classes_emission (hd : d.Consistent o s []) (us : List Marshalled) :
    (s.emission o us d).bindings.classes =
      container o.constantsClass (fieldsOfConstants d.bounds s.constants.toList) [] ++
        container o.methodsClass [] (methodsOf o s.procedures.toList us) := by
  have htypes : d.types.toList.filter (·.isContainer) = [] := by
    refine List.filter_eq_nil_iff.mpr fun t ht => ?_
    rw [hd.not_isContainer ht]
    nofun
  have hclasses (name : String) (fields : List Field) (methods : List Method) :
      (container name fields methods).filter (·.isContainer) = container name fields methods := by
    refine List.filter_eq_self.mpr fun t ht => ?_
    rw [container_cases ht]
    rfl
  unfold Managed.Bindings.classes Store.emission
  dsimp only
  rw [List.filter_append, List.filter_append, htypes, hclasses, hclasses, List.nil_append]

namespace Store

theorem settles_methodSites (hrun : PlainRuns o s .empty s.jobs (us ++ vs) d)
    (hlength : us.length = s.bodyJobs.length) : List.Forall₂ (Settles o s d) (s.methodSites.map .use) vs := by
  obtain ⟨hall, -⟩ := hrun.settles (Taken.Within.refl _) fun _ h => h
  have hdrop := List.forall₂_drop s.bodyJobs.length hall
  rwa [jobs, List.drop_left, ← hlength, List.drop_left] at hdrop

theorem exists_reordered_of_plainRuns (hst : s.Reordered t) (hlength : us.length = s.bodyJobs.length)
    (hrun : PlainRuns o s .empty s.jobs (us ++ vs) d) :
    ∃ e', t.emit? o = some e' ∧ e'.diagnostics.ofKind .renamedType = [] ∧
      (s.emission o vs d).bindings.Reordered e'.bindings := by
  obtain ⟨ws, d', hrun', hmates⟩ := exists_mate hst hrun
  have hlength' : (ws.take t.bodyJobs.length).length = t.bodyJobs.length := by
    have hall := hrun'.runs.length_eq
    rw [jobs, List.length_append] at hall
    rw [List.length_take]
    omega
  have hws := List.take_append_drop t.bodyJobs.length ws
  rw [← hws] at hrun'
  have hmethods := settles_methodSites hrun hlength
  have hmethods' := settles_methodSites hrun' hlength'
  refine ⟨_, emit?_eq_some_iff_runs.mpr ⟨_, _, d', hlength', hrun'.runs, rfl⟩, hmates.right.quiet, ?_, ?_⟩
  · rw [types_emission hmates.left.consistent, types_emission hmates.right.consistent]
    exact hmates.types hst.agrees
  · rw [classes_emission hmates.left.consistent, classes_emission hmates.right.consistent]
    refine List.rel_append (container_sameClass _ ?_ (.refl _)) (container_sameClass _ ⟨[], .nil, .refl _⟩ ?_)
    · exact fieldsOfConstants_same hmates.contains_bounds hst.constants
    · exact methodsOf_perm hst.agrees hst.procedures hmethods hmethods'

end Store

end HeaderBinding
