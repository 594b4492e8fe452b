import HeaderBinding.Proofs.Export.Inquiry
import HeaderBinding.Proofs.Resolve.Idempotence

namespace HeaderBinding

def answers (results : List ExportResult) : List (Option ExportMatch) :=
  (results.takeWhile Except.isOk).filterMap Except.toOption

def failure? (results : List ExportResult) : Option ExportError :=
  results.findSome? fun result => match result with
    | .error e => some e
    | .ok _ => none

theorem answers_ok (found : Option ExportMatch) (rest : List ExportResult) :
    answers (.ok found :: rest) = found :: answers rest := rfl

theorem length_answers (results : List ExportResult) :
    (answers results).length = results.findIdx fun result => !result.isOk := by
  induction results with
  | nil => rfl
  | cons result rest ih =>
    cases result with
    | error e => rfl
    | ok found =>
      rw [answers_ok, List.length_cons, ih, List.findIdx_cons]
      rfl

def ExportMatch.clash (m : ExportMatch) : String :=
  "exported by '" ++ m.module ++ "' and also by " ++ ", ".intercalate (m.shadowed.map ("'" ++ · ++ "'")) ++
    "; using '" ++ m.module ++ "'"

namespace Procedure

def isFree (p : Procedure) : Bool :=
  p.convention = none ∧ p.module = none

theorem isUnbound_eq_isFree (p : Procedure) : p.isUnbound = p.isFree := by
  rcases p with ⟨name, returns, params, _ | convention, _ | module⟩ <;> rfl

def boundBy (p : Procedure) : Option (Option ExportMatch) → Procedure
  | some (some m) => if p.isFree then { p with module := some m.module } else p
  | _ => p

def noted (p : Procedure) : Option ExportMatch → Diagnostics
  | none => [⟨.info, .exportNotFound, some ⟨.procedure, p.name⟩, "not exported by any configured module"⟩]
  | some m =>
    if m.shadowed = [] then [] else [⟨.info, .ambiguousExport, some ⟨.procedure, p.name⟩, m.clash⟩]

theorem noted_none (p : Procedure) : p.noted none = [p.notExported] := rfl

theorem noted_some (p : Procedure) (m : ExportMatch) :
    p.noted (some m) = if m.isAmbiguous then [p.ambiguous m] else [] := by
  obtain ⟨module, _ | ⟨other, others⟩⟩ := m <;> rfl

theorem boundBy_of_not_isFree {p : Procedure} (h : ¬ p.isFree = true) (answer : Option (Option ExportMatch)) :
    p.boundBy answer = p := by
  rcases answer with _ | _ | m
  · rfl
  · rfl
  · exact if_neg h

end Procedure

namespace BindReport

def noting (report : BindReport) (p : Procedure) (found : Option ExportMatch) : BindReport where
  bound := report.bound + [found].countP Option.isSome
  notFound := report.notFound + [found].countP Option.isNone
  diagnostics := report.diagnostics ++ p.noted found
  error := report.error

def after (report : BindReport) (unbound : List Procedure) (results : List ExportResult) : BindReport where
  bound := report.bound + (answers results).countP Option.isSome
  notFound := report.notFound + (answers results).countP Option.isNone
  diagnostics := report.diagnostics ++ (unbound.zip (answers results)).flatMap fun x => x.1.noted x.2
  error := failure? results

variable (report : BindReport) (p : Procedure) (unbound : List Procedure)

theorem bound_add_notFound_after (results : List ExportResult) :
    (report.after unbound results).bound + (report.after unbound results).notFound =
      report.bound + report.notFound + results.findIdx fun result => !result.isOk := by
  have hcounts : (answers results).countP Option.isSome + (answers results).countP Option.isNone =
      (answers results).length := by
    rw [List.length_eq_countP_add_countP Option.isSome, Nat.add_left_cancel_iff]
    exact List.countP_congr fun found _ => by cases found <;> simp
  rw [← length_answers, ← hcounts]
  exact Nat.add_add_add_comm ..

theorem after_nil (h : report.error = none) : report.after unbound [] = report := by
  obtain ⟨bound, notFound, diagnostics, error⟩ := report
  cases h
  unfold after
  rw [show answers [] = [] from rfl, List.zip_nil_right, List.flatMap_nil, List.append_nil]
  rfl

theorem after_error (e : ExportError) (results : List ExportResult) :
    report.after (p :: unbound) (.error e :: results) = { report with error := some e } :=
  congrArg (BindReport.mk report.bound report.notFound · (some e)) (List.append_nil report.diagnostics)

theorem after_ok (found : Option ExportMatch) (results : List ExportResult) :
    report.after (p :: unbound) (.ok found :: results) = (report.noting p found).after unbound results := by
  have hcount : ∀ (q : Option ExportMatch → Bool) n,
      n + (found :: answers results).countP q = n + [found].countP q + (answers results).countP q :=
    fun q n => by rw [← List.singleton_append, List.countP_append, Nat.add_assoc]
  simp only [after, noting, answers_ok, hcount, List.zip_cons_cons, List.flatMap_cons, List.append_assoc]
  rfl

end BindReport

namespace ResolveReport

variable (r : ResolveReport)

theorem bindWith_after (unbound : List Procedure) (results : List ExportResult) :
    r.bindWith (BindReport.empty.after unbound results) = { r with
      bound := (answers results).countP Option.isSome
      diagnostics := r.diagnostics ++ (unbound.zip (answers results)).flatMap fun x => x.1.noted x.2
      exportError := failure? results } := by
  simp only [bindWith, BindReport.after, BindReport.empty, Nat.zero_add, List.nil_append]

theorem bindWith_empty (hbound : r.bound = 0) (herror : r.exportError = none) : r.bindWith .empty = r := by
  obtain ⟨linked, unresolvedReferences, evaluated, unresolvedValues, bound, diagnostics, exportError⟩ := r
  cases hbound
  cases herror
  simp only [bindWith, BindReport.empty, List.append_nil]

end ResolveReport

variable {σ : Type} [ExportProvider σ]

namespace Procedure

variable {x : Inquiry σ} {report : BindReport} {p : Procedure}

theorem bind_failed {e : ExportError} {y : Inquiry σ} (hreport : report.error = none) (hp : p.isFree = true)
    (hfind : x.find p.name = (.error e, y)) : p.bind (x, report) = (p, y, { report with error := some e }) := by
  simp [bind, hreport, isUnbound_eq_isFree, hp, hfind]

theorem bind_found {found : Option ExportMatch} {y : Inquiry σ} (hreport : report.error = none)
    (hp : p.isFree = true) (hfind : x.find p.name = (.ok found, y)) :
    p.bind (x, report) = (p.boundBy (some found), y, report.noting p found) := by
  cases found with
  | none => simp [bind, hreport, isUnbound_eq_isFree, hp, hfind, boundBy, noted_none, BindReport.noting]
  | some m => simp [bind, hreport, isUnbound_eq_isFree, hp, hfind, boundBy, noted_some, BindReport.noting]

theorem mapM_bind_failed (h : report.error.isSome = true) (ps : List Procedure) :
    ps.mapM bind (x, report) = (ps, x, report) := by
  induction ps with
  | nil => rfl
  | cons p rest ih =>
    have hp : p.bind (x, report) = (p, x, report) := bind_skipped (by rw [h, Bool.true_or])
    rw [mapM_cons_apply, hp, ih]

theorem reaches_bind (p : Procedure) (st : Inquiry σ × BindReport) : st.1.Reaches (p.bind st).2.1 := by
  obtain ⟨x, report⟩ := st
  by_cases hskip : (report.error.isSome || !p.isUnbound) = true
  · rw [bind_skipped hskip]
  · have hfind := x.reaches_find p.name
    simp only [bind, hskip, Bool.false_eq_true, if_false]
    rcases hresult : x.find p.name with ⟨e | _ | m, y⟩ <;> rw [hresult] at hfind <;> exact hfind

end Procedure

def Inquiry.resultsOf (x : Inquiry σ) (ps : List Procedure) : List ExportResult :=
  (Inquiry.findAll ((ps.filter Procedure.isFree).map (·.name)) x).1

namespace Inquiry

theorem resultsOf_cons_of_not_isFree {x : Inquiry σ} {p : Procedure} (hp : ¬ p.isFree = true)
    (ps : List Procedure) : x.resultsOf (p :: ps) = x.resultsOf ps := by
  rw [resultsOf, List.filter_cons_of_neg hp]
  rfl

theorem resultsOf_cons {x : Inquiry σ} {p : Procedure} (hp : p.isFree = true) (ps : List Procedure) :
    x.resultsOf (p :: ps) = (x.find p.name).1 :: (x.find p.name).2.resultsOf ps := by
  rw [resultsOf, List.filter_cons_of_pos hp, List.map_cons, findAll, mapM_cons_apply]
  rfl

theorem length_resultsOf (x : Inquiry σ) (ps : List Procedure) :
    (x.resultsOf ps).length = (ps.filter Procedure.isFree).length := by
  induction ps generalizing x with
  | nil => rfl
  | cons p rest ih =>
    by_cases hp : p.isFree = true
    · rw [resultsOf_cons hp, List.filter_cons_of_pos hp, List.length_cons, List.length_cons, ih]
    · rw [resultsOf_cons_of_not_isFree hp, List.filter_cons_of_neg hp, ih]

end Inquiry

namespace Procedure

def boundAll (ps : List Procedure) (found : List (Option ExportMatch)) : List Procedure :=
  ps.mapIdx fun i p => p.boundBy found[(ps.take i).countP isFree]?

theorem boundAll_nil_answers (ps : List Procedure) : boundAll ps [] = ps := by
  refine List.ext_getElem? fun i => ?_
  simp [boundAll, boundBy]

theorem boundAll_cons_of_not_isFree {p : Procedure} (hp : ¬ p.isFree = true) (ps : List Procedure)
    (found : List (Option ExportMatch)) : boundAll (p :: ps) found = p :: boundAll ps found := by
  simp only [boundAll, List.mapIdx_cons, List.take_succ_cons, List.countP_cons_of_neg hp, boundBy_of_not_isFree hp]

theorem boundAll_cons {p : Procedure} (hp : p.isFree = true) (ps : List Procedure) (answer : Option ExportMatch)
    (found : List (Option ExportMatch)) :
    boundAll (p :: ps) (answer :: found) = p.boundBy (some answer) :: boundAll ps found := by
  simp only [boundAll, List.mapIdx_cons, List.take_zero, List.countP_nil, List.take_succ_cons,
    List.countP_cons_of_pos hp, List.getElem?_cons_zero, List.getElem?_cons_succ]

theorem mapM_bind (ps : List Procedure) (x : Inquiry σ) (report : BindReport) (h : report.error = none) :
    (ps.mapM bind (x, report)).1 = boundAll ps (answers (x.resultsOf ps)) ∧
      (ps.mapM bind (x, report)).2.2 = report.after (ps.filter isFree) (x.resultsOf ps) := by
  induction ps generalizing x report with
  | nil => exact ⟨rfl, (report.after_nil [] h).symm⟩
  | cons p rest ih =>
    rw [mapM_cons_apply]
    by_cases hp : p.isFree = true
    · rw [Inquiry.resultsOf_cons hp, List.filter_cons_of_pos hp]
      rcases hfind : x.find p.name with ⟨e | found, y⟩
      · rw [bind_failed h hp hfind, mapM_bind_failed rfl]
        exact ⟨(boundAll_nil_answers (p :: rest)).symm, (report.after_error p _ e _).symm⟩
      · rw [bind_found h hp hfind]
        obtain ⟨hprocedures, hreport⟩ := ih y (report.noting p found) h
        exact ⟨by rw [answers_ok, boundAll_cons hp]; exact congrArg _ hprocedures,
          hreport.trans (report.after_ok p _ found _).symm⟩
    · rw [Inquiry.resultsOf_cons_of_not_isFree hp, List.filter_cons_of_neg hp,
        boundAll_cons_of_not_isFree hp, bind_skipped (by simp [isUnbound_eq_isFree, hp])]
      obtain ⟨hprocedures, hreport⟩ := ih x report h
      exact ⟨congrArg _ hprocedures, hreport⟩

variable {τ : Type} [ExportProvider τ]

theorem bind_map {f : σ → τ} (hf : ∀ source module, ExportProvider.acquire (f source) module =
      ((ExportProvider.acquire source module).1, f (ExportProvider.acquire source module).2))
    (p : Procedure) (st : Inquiry σ × BindReport) :
    p.bind (Prod.map (Inquiry.map f) id st) = ((p.bind st).1, Prod.map (Inquiry.map f) id (p.bind st).2) := by
  obtain ⟨x, report⟩ := st
  simp only [bind, Prod.map_apply, id_eq, Inquiry.find_map hf]
  split
  · rfl
  · rcases x.find p.name with ⟨e | _ | m, y⟩ <;> rfl

end Procedure

namespace Store

variable (s : Store)

def boundTo (found : List (Option ExportMatch)) : Store :=
  { s with procedures := ⟨(Procedure.boundAll s.procedures.toList found).toArray, s.procedures.index⟩ }

theorem boundTo_nil : s.boundTo [] = s := by
  rw [boundTo, Procedure.boundAll_nil_answers]
  rfl

theorem bind_after (x : Inquiry σ) :
    (s.bind x).1 = s.boundTo (answers (x.resultsOf s.procedures.toList)) ∧
      (s.bind x).2.2 = BindReport.empty.after (s.procedures.toList.filter Procedure.isFree)
        (x.resultsOf s.procedures.toList) := by
  obtain ⟨hprocedures, hreport⟩ := Procedure.mapM_bind s.procedures.toList x .empty rfl
  rw [bind_eq]
  exact ⟨by rw [hprocedures]; rfl, hreport⟩

theorem bind_map {τ : Type} [ExportProvider τ] {f : σ → τ}
    (hf : ∀ source module, ExportProvider.acquire (f source) module =
      ((ExportProvider.acquire source module).1, f (ExportProvider.acquire source module).2)) (x : Inquiry σ) :
    s.bind (x.map f) = ((s.bind x).1, Prod.map (Inquiry.map f) id (s.bind x).2) := by
  have hprocedures := mapM_along _ (Procedure.bind_map hf) s.procedures.toList (x, .empty)
  change s.procedures.toList.mapM Procedure.bind (x.map f, .empty) = _ at hprocedures
  simp only [bind_eq, hprocedures]

theorem reaches_bind (x : Inquiry σ) : x.Reaches (s.bind x).2.1 :=
  mapM_relates (r := fun st st' => st.1.Reaches st'.1) (fun _ => .refl) (fun hst htu => hst.trans htu)
    Procedure.reaches_bind s.procedures.toList (x, .empty)

theorem resolveWithSource_spec (s : Store) (options : ResolveOptions) (source : σ) (modules : ModuleList) :
    let resolved := s.resolve options
    let result := s.resolveWithSource options source modules
    let unbound := resolved.1.procedures.toList.filter Procedure.isFree
    let results := (Inquiry.start source modules).resultsOf resolved.1.procedures.toList
    let looked := if options.bindsProcedures then results else []
    let binding := (resolved.1.bind (.start source modules)).2.2
    result.1 = resolved.1.boundTo (answers looked) ∧
    result.2.2 = { resolved.2 with
      bound := (answers looked).countP Option.isSome
      diagnostics := resolved.2.diagnostics ++ (unbound.zip (answers looked)).flatMap fun x => x.1.noted x.2
      exportError := failure? looked } ∧
    results.length = unbound.length ∧
    binding.bound + binding.notFound = results.findIdx (fun result => !result.isOk) := by
  dsimp only
  rw [← ResolveReport.bindWith_after]
  obtain ⟨hstore, hreport⟩ := (s.resolve options).1.bind_after (.start source modules)
  have hcount := BindReport.empty.bound_add_notFound_after
    ((s.resolve options).1.procedures.toList.filter Procedure.isFree)
    ((Inquiry.start source modules).resultsOf (s.resolve options).1.procedures.toList)
  rw [← hreport] at hcount
  refine and_assoc.mp ⟨?_, Inquiry.length_resultsOf _ _, hcount.trans (Nat.zero_add _)⟩
  cases hbinds : options.bindsProcedures with
  | true =>
    rw [resolveWithSource_of_binds s modules hbinds, if_pos rfl, hstore, hreport]
    exact ⟨rfl, rfl⟩
  | false =>
    have hempty : (s.resolve options).2.bindWith .empty = (s.resolve options).2 :=
      ResolveReport.bindWith_empty _ rfl rfl
    rw [resolveWithSource_of_not_binds s modules hbinds, if_neg Bool.false_ne_true,
      BindReport.empty.after_nil _ rfl, hempty]
    exact ⟨(boundTo_nil _).symm, rfl⟩

end Store

end HeaderBinding
