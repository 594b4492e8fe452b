import HeaderBinding.Proofs.Resolve.Binding
import HeaderBinding.Proofs.Resolve.Linking
import HeaderBinding.Proofs.Resolve.Valuation
import HeaderBinding.Resolve.Basic

namespace HeaderBinding

theorem LinkReport.lasting_foldl_meet (T : String → Option Target)
    (subjects : List (Key × List Reference)) {report : LinkReport}
    (h : report.diagnostics.lasting = report.diagnostics) :
    (subjects.foldl (meet T) report).diagnostics.lasting =
      (subjects.foldl (meet T) report).diagnostics := by
  induction subjects generalizing report with
  | nil => exact h
  | cons x rest ih =>
    refine ih ?_
    rw [meet, Diagnostics.lasting, List.filter_append]
    congr 1
    refine List.filter_eq_self.mpr fun d hd => ?_
    obtain ⟨name, -, rfl⟩ := List.mem_map.mp hd
    rfl

namespace Store

variable {s : Store} {f : Values}

theorem lasting_link (s : Store) : s.link.2.diagnostics.lasting = s.link.2.diagnostics := by
  rw [link_eq]
  exact LinkReport.lasting_foldl_meet s.targetOf? s.subjects rfl

theorem kind_unvalued (k : Key) (n : String) (failure : Option EvalError) :
    (unvalued k n failure).kind ≠ .ambiguousExport := by
  cases failure with
  | none => nofun
  | some e => cases e <;> nofun

theorem Outcome.lasting {failure : String → Option EvalError} (h : s.Outcome f failure) :
    (s.valuate none).2.diagnostics.lasting = (s.valuate none).2.diagnostics := by
  rw [h.diagnostics_eq]
  refine List.filter_eq_self.mpr fun d hd => ?_
  obtain ⟨⟨k, n⟩, -, rfl⟩ := List.mem_map.mp hd
  exact decide_eq_true (kind_unvalued k n (failure n))

theorem items_link (s : Store) : s.link.1.items = s.items := by
  have htype : ∀ t : NativeType, (t.rewrite (·.linkedBy s.targetOf?) id).items = t.items := by
    intro t
    rw [NativeType.items, NativeType.enumerations_rewrite, List.map_id]
    rfl
  have htypedef : ∀ d : Typedef, (relink s.targetOf? d).target.items = d.target.items :=
    fun d => htype d.target
  have hdefinition : ∀ d : Definition, (relink s.targetOf? d).items = d.items := by
    intro d
    cases d with
    | enumeration e => rfl
    | record kind body => simp [relink, Definition.mapRoots_record, List.flatMap_map, htype]
  rw [link_eq]
  simp only [items, Table.toList_map, List.flatMap_map, htypedef, hdefinition]

theorem subject_assign_typedef (f : Values) (d : Typedef) : subject (d.assign f) = subject d := by
  simp only [subject, Declaration.references, Declaration.roots, Typedef.assign,
    List.flatMap_cons, List.flatMap_nil, NativeType.references_assign]
  rfl

theorem subject_assign_definition (f : Values) (d : Definition) : subject (d.assign f) = subject d := by
  cases d with
  | enumeration e => rfl
  | record kind body =>
    simp [subject, Declaration.key, Declaration.name, Definition.name, Declaration.references,
      Declaration.roots, Definition.memberTypes, List.flatMap_map, NativeType.references_assign]

theorem subjects_assign (f : Values) (s : Store) : (s.assign f).subjects = s.subjects := by
  simp only [subjects, assign, Table.toList_map, List.map_map, Function.comp_def, subject_assign_typedef,
    subject_assign_definition]

theorem targetOf?_assign (f : Values) (s : Store) : (s.assign f).targetOf? = s.targetOf? :=
  targetOf?_congr (f := Typedef.assign f) (g := Definition.assign f) (fun _ => rfl)
    (Definition.name_assign f) rfl rfl

def withProcedures (ps : Table Procedure) (s : Store) : Store :=
  { s with procedures := ps }

theorem castTarget_withProcedures (ps : Table Procedure) (s : Store) :
    (s.withProcedures ps).castTarget = s.castTarget :=
  castTarget_congr (f := s.valueOf) fun _ => rfl

theorem targetOf?_withProcedures (ps : Table Procedure) (s : Store) :
    (s.withProcedures ps).targetOf? = s.targetOf? := rfl

theorem subjects_withProcedures {ps : Table Procedure} {s : Store}
    (hps : ps.toList.map subject = s.procedures.toList.map subject) :
    (s.withProcedures ps).subjects = s.subjects := by
  simp only [subjects, withProcedures, hps]

theorem Solution.valuate_again (hd : (s.items.map (·.name)).Nodup) (hf : s.Solution f)
    {ps : Table Procedure} {t : Store} (ht : t = (s.assign f).withProcedures ps) :
    (t.valuate none).1 = t ∧ (t.valuate none).2.evaluated = 0 ∧
      (t.valuate none).2.unresolved = (s.valuate none).2.unresolved ∧
      (t.valuate none).2.diagnostics = (s.valuate none).2.diagnostics := by
  obtain ⟨hstore, hfailures⟩ := valuate_none hd hf
  have hassigned : (s.assign f).Solution f := hf.assign hd hf.derives
  have hdt : (t.items.map (·.name)).Nodup := by
    rw [ht]
    change ((s.assign f).items.map (·.name)).Nodup
    rwa [names_assign]
  have htarget : t.castTarget = s.castTarget := by
    rw [ht, castTarget_withProcedures, castTarget_assign (node?_assign f s)]
  have hrules : t.rules = s.rules := by
    rw [ht]
    exact rules_assign f s
  have hvalues : t.valueOf = f := by
    rw [ht]
    exact valueOf_assign (coherent_of_nodup hd) hf.derives.grows
  have hsolution : t.Solution f := by
    constructor
    · rw [hvalues]
      exact .refl
    · rw [htarget, hrules]
      exact hf.closed
  have hself : t.assign f = t := by
    refine assign_eq_self fun i hi => ?_
    rw [← value_eq hdt hi, hvalues]
  have houtcome : s.Outcome f fun n => (s.swept none).2.1.failures[n]? := hf.outcome hd hfailures
  have houtcome' : t.Outcome f fun n => (s.swept none).2.1.failures[n]? := by
    refine hsolution.outcome hdt fun i hi hnone => ?_
    rw [hrules] at hi
    rw [hfailures i hi hnone, failureOf, failureOf, htarget, hrules]
  have hvalued : (t.valuate none).1 = t := houtcome'.store_eq.trans hself
  have hunvalued : t.unvaluedItems = (s.assign f).unvaluedItems := by
    rw [ht]
    rfl
  obtain ⟨hswept, hevaluated, hunresolved, -⟩ := valuate_eq (coherent_of_nodup hdt) none
  obtain ⟨hswept', -, hunresolved', -⟩ := valuate_eq (coherent_of_nodup hd) none
  refine ⟨hvalued, ?_, ?_, ?_⟩
  · have hcounts := evaluated_swept none t
    rw [← hswept, hvalued] at hcounts
    omega
  · rw [hunresolved, hunresolved', ← hswept, ← hswept', hvalued, hstore, hunvalued]
  · rw [houtcome'.diagnostics_eq, houtcome.diagnostics_eq, hself, hunvalued]

theorem bind_eq {σ : Type} [ExportProvider σ] (s : Store) (x : Inquiry σ) :
    let bound := s.procedures.toList.mapM Procedure.bind (x, .empty)
    s.bind x = (s.withProcedures ⟨bound.1.toArray, s.procedures.index⟩, bound.2) := rfl

theorem bind_again {source : ExportSource} {modules : List String} {x y : ExportSearch}
    (hx : ExportSearch.Faithful source modules x) (hy : ExportSearch.Faithful source modules y) (s : Store) :
    ((s.bind x).1.bind y).1 = (s.bind x).1 ∧ ExportSearch.Faithful source modules (s.bind x).2.1 ∧
      (s.bind x).2.2.Repeats ((s.bind x).1.bind y).2.2 := by
  have hstart : BindReport.Repeated source modules (x, .empty) (y, .empty) := ⟨hx, hy, rfl, rfl, rfl⟩
  obtain ⟨hps, hall⟩ := Procedure.mapM_bind_again s.procedures.toList hstart
  simp only [bind_eq, Table.toList, withProcedures] at hps hall ⊢
  rw [hps]
  exact ⟨rfl, hall.reads, hall.reports⟩

theorem subjects_bind {σ : Type} [ExportProvider σ] (s : Store) (x : Inquiry σ) :
    (s.bind x).1.procedures.toList.map subject = s.procedures.toList.map subject :=
  Procedure.map_mapM_bind (fun _ _ => rfl) s.procedures.toList (x, .empty)

def reportOf (links : LinkReport) (values : ValueReport) : ResolveReport where
  linked := links.linked
  unresolvedReferences := links.unresolved
  evaluated := values.evaluated
  unresolvedValues := values.unresolved
  bound := 0
  diagnostics := links.diagnostics ++ values.diagnostics
  exportError := none

theorem resolve_eq (bindsProcedures : Bool) (s : Store) :
    s.resolve ⟨bindsProcedures, none⟩ =
      ((s.link.1.valuate none).1, reportOf s.link.2 (s.link.1.valuate none).2) := rfl

theorem resolve_solution {s : Store} {f : Values} (hd : (s.items.map (·.name)).Nodup) (hf : s.link.1.Solution f)
    (bindsProcedures : Bool) : (s.resolve ⟨bindsProcedures, none⟩).1 = s.link.1.assign f := by
  have hdlinked : (s.link.1.items.map (·.name)).Nodup := by rwa [items_link]
  rw [resolve_eq]
  exact (valuate_none hdlinked hf).1

theorem resolve_again (hd : (s.items.map (·.name)).Nodup) (bindsProcedures : Bool)
    {ps : Table Procedure} {resolved : Store} {report : ResolveReport}
    (hresolved : s.resolve ⟨bindsProcedures, none⟩ = (resolved, report))
    (hps : ps.toList.map subject = resolved.procedures.toList.map subject) :
    (resolved.withProcedures ps).resolve ⟨bindsProcedures, none⟩ =
      (resolved.withProcedures ps, { report with linked := 0, evaluated := 0 }) := by
  have hdlinked : (s.link.1.items.map (·.name)).Nodup := by rwa [items_link]
  obtain ⟨f, hf, -⟩ := swept_none hdlinked
  rw [resolve_eq, Prod.mk.injEq] at hresolved
  obtain ⟨hstore, hreport⟩ := hresolved
  rw [(valuate_none hdlinked hf).1] at hstore
  have htarget : (resolved.withProcedures ps).targetOf? = s.targetOf? := by
    rw [targetOf?_withProcedures, ← hstore, targetOf?_assign, targetOf?_link]
  have hsubjects : (resolved.withProcedures ps).subjects = s.link.1.subjects := by
    rw [subjects_withProcedures hps, ← hstore, subjects_assign]
  obtain ⟨hlink, hlinked, hunresolved, hdiagnostics⟩ := link_of_linked htarget hsubjects
  obtain ⟨hvaluate, hevaluated, hunvalued, hvaluation⟩ :=
    hf.valuate_again hdlinked (congrArg (withProcedures ps) hstore.symm)
  rw [resolve_eq, hlink, hvaluate, ← hreport]
  simp only [reportOf, hlinked, hunresolved, hdiagnostics, hevaluated, hunvalued, hvaluation]

theorem lasting_resolve (hd : (s.items.map (·.name)).Nodup) (bindsProcedures : Bool) :
    (s.resolve ⟨bindsProcedures, none⟩).2.diagnostics.lasting =
      (s.resolve ⟨bindsProcedures, none⟩).2.diagnostics := by
  have hdlinked : (s.link.1.items.map (·.name)).Nodup := by rwa [items_link]
  obtain ⟨f, hf, hstore, hfailures⟩ := swept_none hdlinked
  have houtcome : s.link.1.Outcome f fun n => (s.link.1.swept none).2.1.failures[n]? :=
    hf.outcome hdlinked hfailures
  have hlink := lasting_link s
  have hvaluation := houtcome.lasting
  rw [Diagnostics.lasting] at hlink hvaluation ⊢
  rw [resolve_eq]
  simp only [reportOf]
  rw [List.filter_append, hlink, hvaluation]

section

variable {σ : Type} [ExportProvider σ] (s : Store) (options : ResolveOptions) (modules : ModuleList)

theorem resolveWithSource_of_not_binds {options : ResolveOptions} (h : options.bindsProcedures = false) (source : σ) :
    s.resolveWithSource options source modules = ((s.resolve options).1, source, (s.resolve options).2) := by
  rw [resolveWithSource, h]
  rfl

theorem resolveWithSource_of_binds {options : ResolveOptions} (h : options.bindsProcedures = true) (source : σ) :
    let bound := (s.resolve options).1.bind (.start source modules)
    s.resolveWithSource options source modules =
      (bound.1, bound.2.1.close, (s.resolve options).2.bindWith bound.2.2) := by
  rw [resolveWithSource, h]
  rfl

end

theorem resolveWithSource_again (bindsProcedures : Bool) (s : Store) (source : ExportSource)
    (modules : ModuleList) (hd : (s.items.map (·.name)).Nodup) :
    let first := s.resolveWithSource ⟨bindsProcedures, none⟩ source modules
    let again := first.1.resolveWithSource ⟨bindsProcedures, none⟩ first.2.1 modules
    again.1 = first.1 ∧ again.2.2.changed = 0 ∧
      again.2.2.unresolvedReferences = first.2.2.unresolvedReferences ∧
      again.2.2.unresolvedValues = first.2.2.unresolvedValues ∧
      again.2.2.exportError = first.2.2.exportError ∧
      again.2.2.diagnostics = first.2.2.diagnostics.filter (·.kind ≠ .ambiguousExport) := by
  have hlasting := lasting_resolve hd bindsProcedures
  rcases hresolved : s.resolve ⟨bindsProcedures, none⟩ with ⟨resolved, report⟩
  rw [hresolved] at hlasting
  cases bindsProcedures with
  | false =>
    have hps : resolved.procedures.toList.map subject = resolved.procedures.toList.map subject := rfl
    have hagain := resolve_again hd false hresolved hps
    change resolved.resolve ⟨false, none⟩ = (resolved, _) at hagain
    have hbinds : (⟨false, none⟩ : ResolveOptions).bindsProcedures = false := rfl
    have hfirst := resolveWithSource_of_not_binds s modules hbinds source
    have hsecond := resolveWithSource_of_not_binds resolved modules hbinds source
    rw [hresolved] at hfirst
    rw [hagain] at hsecond
    rw [hfirst]
    dsimp only
    rw [hsecond]
    refine ⟨rfl, ?_, rfl, rfl, rfl, hlasting.symm⟩
    rw [resolve_eq, Prod.mk.injEq] at hresolved
    obtain ⟨-, rfl⟩ := hresolved
    rfl
  | true =>
    have hbinds : (⟨true, none⟩ : ResolveOptions).bindsProcedures = true := rfl
    have hfirst := resolveWithSource_of_binds s modules hbinds source
    rw [hfirst, hresolved]
    dsimp only
    let bound := resolved.bind (.start source modules)
    have hresolve : bound.1.resolve ⟨true, none⟩ = (bound.1, { report with linked := 0, evaluated := 0 }) :=
      resolve_again hd true hresolved (subjects_bind resolved (.start source modules))
    have hsecond := resolveWithSource_of_binds bound.1 modules hbinds bound.2.1.close
    have hx : ExportSearch.Faithful source modules.names (.start source modules) :=
      ExportSearch.faithful_start (.refl source) modules
    have hclosed : bound.2.1.close.ReadsAs source := ExportSearch.readsAs_close (bind_again hx hx resolved).2.1
    obtain ⟨hstore, -, hreport⟩ := bind_again hx (ExportSearch.faithful_start hclosed modules) resolved
    rw [hresolve] at hsecond
    rw [hsecond]
    refine ⟨hstore, ?_, rfl, rfl, hreport.error_eq, ?_⟩
    · have hbound : (bound.1.bind (.start bound.2.1.close modules)).2.2.bound = 0 := hreport.bound_eq
      simp only [ResolveReport.changed, ResolveReport.bindWith, hbound]
    · simp only [ResolveReport.bindWith, hreport.diagnostics_eq, bound]
      rw [List.filter_append]
      congr 1
      exact hlasting.symm

theorem resolveWithSource_again_ambiguous :
    let constants : List Constant :=
      [⟨"A", "B + 1", .declared, none⟩, ⟨"B", "2", .declared, none⟩, ⟨"C", "C", .preprocessor, none⟩]
    let procedure : Procedure := ⟨"Beep", .void, [], none, none⟩
    let s := (ofConstants constants).withProcedures ⟨#[procedure], Table.indexOf [procedure]⟩
    let source := (ExportSource.empty.withModule "user32.dll" ["Beep"]).withModule "kernel32.dll" ["Beep"]
    let modules := ModuleList.ofList ["kernel32.dll", "user32.dll"]
    let first := s.resolveWithSource ⟨true, none⟩ source modules
    let again := first.1.resolveWithSource ⟨true, none⟩ first.2.1 modules
    again.1 = first.1 ∧ again.2.2.changed = 0 ∧
      again.2.2.unresolvedReferences = first.2.2.unresolvedReferences ∧
      again.2.2.unresolvedValues = first.2.2.unresolvedValues ∧
      again.2.2.exportError = first.2.2.exportError ∧
      again.2.2.diagnostics = first.2.2.diagnostics.filter (·.kind ≠ .ambiguousExport) := by
  intro constants procedure s source modules
  have hitems : s.items = constants.map Constant.item := items_ofConstants constants
  refine resolveWithSource_again true s source modules ?_
  rw [hitems]
  decide

end Store

end HeaderBinding
