import HeaderBinding.Proofs.Export.Search
import HeaderBinding.Resolve.Binding

namespace HeaderBinding

namespace Procedure

variable {σ : Type} [ExportProvider σ]

theorem bind_skipped {p : Procedure} {x : Inquiry σ} {report : BindReport}
    (h : (report.error.isSome || !p.isUnbound) = true) : p.bind (x, report) = (p, x, report) := by
  simp only [bind, h, if_true]

theorem exists_module_bind (p : Procedure) (st : Inquiry σ × BindReport) :
    ∃ module, (p.bind st).1 = { p with module := module } := by
  obtain ⟨x, report⟩ := st
  by_cases hskip : (report.error.isSome || !p.isUnbound) = true
  · rw [bind_skipped hskip]
    exact ⟨p.module, rfl⟩
  · simp only [bind, hskip, Bool.false_eq_true, if_false]
    split
    · exact ⟨p.module, rfl⟩
    · exact ⟨p.module, rfl⟩
    · exact ⟨_, rfl⟩

theorem map_mapM_bind {β : Type} {f : Procedure → β} (hf : ∀ p module, f { p with module := module } = f p)
    (ps : List Procedure) (st : Inquiry σ × BindReport) : (ps.mapM bind st).1.map f = ps.map f := by
  induction ps generalizing st with
  | nil => rfl
  | cons p rest ih =>
    obtain ⟨module, hp⟩ := p.exists_module_bind st
    rw [mapM_cons_apply, List.map_cons, ih, hp, hf]
    rfl

end Procedure

def Diagnostics.lasting (ds : Diagnostics) : Diagnostics :=
  ds.filter (·.kind ≠ .ambiguousExport)

structure BindReport.Repeats (report again : BindReport) : Prop where
  bound_eq : again.bound = 0
  error_eq : again.error = report.error
  diagnostics_eq : again.diagnostics = report.diagnostics.lasting

structure BindReport.Repeated (s : ExportSource) (modules : List String) (first second : ExportSearch × BindReport) :
    Prop where
  reads : ExportSearch.Faithful s modules first.1
  reads_again : ExportSearch.Faithful s modules second.1
  reports : first.2.Repeats second.2

namespace Procedure

variable {s : ExportSource} {modules : List String} {first second : ExportSearch × BindReport}

theorem bind_again (p : Procedure) (h : BindReport.Repeated s modules first second) :
    ((p.bind first).1.bind second).1 = (p.bind first).1 ∧
      BindReport.Repeated s modules (p.bind first).2 ((p.bind first).1.bind second).2 := by
  obtain ⟨x, report⟩ := first
  obtain ⟨y, again⟩ := second
  obtain ⟨hx, hy, hreport⟩ := h
  by_cases hskip : (report.error.isSome || !p.isUnbound) = true
  · have hagain : (again.error.isSome || !p.isUnbound) = true := by rwa [hreport.error_eq]
    rw [bind_skipped hskip, bind_skipped hagain]
    exact ⟨rfl, hx, hy, hreport⟩
  · have hagain : ¬ (again.error.isSome || !p.isUnbound) = true := by rwa [hreport.error_eq]
    obtain ⟨hfound, hx'⟩ := ExportSearch.find_spec hx p.name
    obtain ⟨hfound', hy'⟩ := ExportSearch.find_spec hy p.name
    have hsame := hfound'.trans hfound.symm
    rcases hfind : x.find p.name with ⟨result, x'⟩
    rcases hfind' : y.find p.name with ⟨result', y'⟩
    rw [hfind] at hx' hsame
    rw [hfind'] at hy' hsame
    change result' = result at hsame
    subst hsame
    rcases result' with e | _ | m
    · simp only [bind, hskip, hagain, if_false, Bool.false_eq_true, hfind, hfind']
      exact ⟨trivial, hx', hy', hreport.bound_eq, rfl, hreport.diagnostics_eq⟩
    · simp only [bind, hskip, hagain, if_false, Bool.false_eq_true, hfind, hfind']
      refine ⟨trivial, hx', hy', hreport.bound_eq, hreport.error_eq, ?_⟩
      rw [Diagnostics.lasting, List.filter_append, hreport.diagnostics_eq]
      rfl
    · have hbound : (again.error.isSome || !({ p with module := some m.module } : Procedure).isUnbound) = true := by
        simp [isUnbound]
      simp only [bind, hskip, if_false, Bool.false_eq_true, hfind, hbound, if_true]
      refine ⟨trivial, hx', hy, hreport.bound_eq, hreport.error_eq, ?_⟩
      rw [Diagnostics.lasting, List.filter_append, hreport.diagnostics_eq]
      cases m.isAmbiguous with
      | false => exact (List.append_nil _).symm
      | true => exact (List.append_nil _).symm

theorem mapM_bind_again (ps : List Procedure) (h : BindReport.Repeated s modules first second) :
    ((ps.mapM bind first).1.mapM bind second).1 = (ps.mapM bind first).1 ∧
      BindReport.Repeated s modules (ps.mapM bind first).2 ((ps.mapM bind first).1.mapM bind second).2 := by
  induction ps generalizing first second with
  | nil => exact ⟨rfl, h⟩
  | cons p rest ih =>
    obtain ⟨hp, hfirst⟩ := p.bind_again h
    obtain ⟨hrest, hall⟩ := ih hfirst
    simp only [mapM_cons_apply] at hrest hall ⊢
    rw [hp, hrest]
    exact ⟨rfl, hall⟩

end Procedure

end HeaderBinding
