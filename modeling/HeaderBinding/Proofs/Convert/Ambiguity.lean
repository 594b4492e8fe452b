import HeaderBinding.Proofs.Convert.Converted
import HeaderBinding.Proofs.Emission.Outcome
import HeaderBinding.Proofs.Emission.Plain
import HeaderBinding.Proofs.Export.ModuleList
import HeaderBinding.Proofs.Export.Verdict
import HeaderBinding.Proofs.Json.Text
import HeaderBinding.Proofs.Resolve.Accounting
import HeaderBinding.Proofs.Resolve.Inquiry

namespace HeaderBinding

namespace Config

def Lists (text : String) (names : List String) : Prop :=
  (Json.scan text).1.firstPart? "modules" = some (.array (names.map .string))

theorem mapM_toText {items : List Json} {names : List String} (h : items.mapM Json.toText = .ok names) :
    items = names.map .string := by
  induction items generalizing names with
  | nil =>
    cases h
    rfl
  | cons j rest ih =>
    rw [List.mapM_cons] at h
    obtain ⟨name, hname, h⟩ := Json.exists_ok_of_bind h
    obtain ⟨names', hrest, h⟩ := Json.exists_ok_of_bind h
    cases h
    cases j with
    | string s =>
      cases hname
      rw [List.map_cons, ← ih hrest]
    | _ => cases hname

theorem toList_toText {j : Json} {names : List String} (h : j.toList Json.toText = .ok names) :
    j = .array (names.map .string) := by
  cases j with
  | array items => exact congrArg Json.array (mapM_toText h)
  | _ => cases h

variable {text : String} {c : Config}

theorem modules_ofJson {form : Json.Form} {j : Json} (h : ofJson form j = .ok c) :
    match j.firstPart? "modules" with
    | none => c.modules = .standard
    | some part => part = .array (c.modules.names.map .string) := by
  refine Json.toRecord_gives modules (fun part l => part = .array (l.names.map .string)) ⟨?_, ?_⟩ h
  · intro j a a' hread
    obtain ⟨names, hnames, rfl⟩ := Json.exists_ok_of_map hread
    exact toList_toText hnames
  · simp only [List.forall_mem_cons]
    refine ⟨?_, ?_, ?_, ?_, ?_, ?_, nofun⟩ <;>
      · intro j a a' hread
        refine Json.get_may modules ?_ hread
        exact fun _ _ => rfl

theorem ofJson_of_ofText (h : ofText text = .ok c) : ofJson .text (Json.scan text).1 = .ok c := by
  simp only [ofText, Json.decodeText] at h
  split at h
  · cases h
  · next hread =>
    rw [hread]
    split at h
    · exact h
    · cases h

theorem modules_ofText (h : ofText text = .ok c) :
    Lists text c.modules.names ∨ (∀ names, ¬Lists text names) ∧ c.modules = .standard := by
  have hmodules := modules_ofJson (ofJson_of_ofText h)
  unfold Lists
  cases hpart : (Json.scan text).1.firstPart? "modules" with
  | none =>
    rw [hpart] at hmodules
    exact .inr ⟨nofun, hmodules⟩
  | some part =>
    rw [hpart] at hmodules
    exact .inl (congrArg some hmodules)

theorem Lists.eq {names names' : List String} (h : Lists text names) (h' : Lists text names') : names = names' := by
  have hparts := h.symm.trans h'
  simp only [Option.some.injEq, Json.array.injEq] at hparts
  exact List.map_injective_iff.mpr (fun _ _ heq => Json.string.inj heq) hparts

theorem distinct_modules_iff (h : ofText text = .ok c) :
    c.modules.Distinct ↔ ∀ names, Lists text names → (⟨names⟩ : ModuleList).Distinct := by
  rcases modules_ofText h with hlists | ⟨hnone, hstandard⟩
  · refine ⟨fun hc names hnames => ?_, fun hall => hall _ hlists⟩
    rw [hnames.eq hlists]
    exact hc
  · rw [hstandard]
    exact iff_of_true ModuleList.distinct_standard fun names hnames => absurd hnames (hnone names)

def listing (names : List String) : Json :=
  .object [("modules", .array (names.map .string))]

theorem isLegible_listing (names : List String) : (listing names).IsLegible := by
  refine ⟨?_, trivial⟩
  change Json.AllLegible (names.map .string)
  induction names with
  | nil => trivial
  | cons name rest ih => exact ⟨trivial, ih⟩

theorem depth_listing (names : List String) : (listing names).depth = 2 := by
  have hitems : Json.depthItems (names.map .string) = 0 := by
    induction names with
    | nil => rfl
    | cons name rest ih => exact (Nat.zero_max _).trans ih
  change max (Json.depthItems (names.map .string) + 1) 0 + 1 = 2
  rw [hitems]
  rfl

theorem readsAs_listing {names : List String} {k : Json} (h : (listing names).ReadsAs k) : k = listing names := by
  rw [listing, Json.readsAs_object] at h
  obtain ⟨entries, rfl, hentries⟩ := h
  obtain ⟨items, _, rfl, hitems, hnone⟩ := Json.entriesReadAs_cons.mp hentries
  obtain rfl := Json.entriesReadAs_nil.mp hnone
  obtain ⟨ks, rfl, hks⟩ := Json.readsAs_array.mp hitems
  have heq : ks = names.map .string := by
    clear hentries hitems
    rw [List.forall₂_map_left_iff] at hks
    induction hks with
    | nil => rfl
    | cons hname _ ih => rw [List.map_cons, Json.readsAs_string.mp hname, ih]
  rw [heq, listing]

theorem toList_toText_strings (names : List String) :
    (Json.array (names.map .string)).toList Json.toText = .ok names := by
  change (names.map Json.string).mapM Json.toText = .ok names
  induction names with
  | nil => rfl
  | cons name rest ih =>
    rw [List.map_cons, List.mapM_cons, ih]
    rfl

theorem ofText_listing (names : List String) :
    ofText ((listing names).pretty 0) = .ok { standard with modules := ⟨names⟩ } := by
  have hdepth : (listing names).depth ≤ Json.maxLevels := by
    rw [depth_listing]
    decide
  obtain ⟨k, hk, hscan⟩ := Json.scan_pretty (isLegible_listing names) hdepth
  obtain rfl := readsAs_listing hk
  have hread : Decodes (ofJson .text (listing names)) (True ∧ True) { standard with modules := ⟨names⟩ } := by
    unfold ofJson
    exact .record (.field rfl rfl (.of_eq (toList_toText_strings names)) .done) rfl
  rw [ofText, Json.decodeText, hscan]
  dsimp only
  rw [hread.ok ⟨trivial, trivial⟩]
  rfl

example : ModuleList.sameModule "a.dll" "A.DLL" = true := by cbv

end Config

structure Procedure.BoundAmong (source : ExportSource) (modules : List String) (m : ExportMatch) (p : Procedure) :
    Prop where
  module_eq : p.module = some m.module
  places_eq : modules.filter (source.offers p.name) = m.module :: m.shadowed

theorem ExportSource.verdict_eq_some {source : ExportSource} {modules : List String} {name : String} {m : ExportMatch}
    (h : source.verdict modules name = .ok (some m)) :
    modules.filter (source.offers name) = m.module :: m.shadowed := by
  unfold verdict at h
  split at h
  · cases h
  · split at h
    · cases h
    · next hplaces =>
      cases h
      exact hplaces

namespace Procedure

def ReportedAmbiguous (source : ExportSource) (modules : List String) (p : Procedure) (x : Diagnostic) : Prop :=
  ∃ m : ExportMatch, x = ⟨.info, .ambiguousExport, some ⟨.procedure, p.name⟩, m.clash⟩ ∧ m.shadowed ≠ [] ∧
    p.BoundAmong source modules m

variable {source : ExportSource} {modules : ModuleList} {p : Procedure} {search : ExportSearch} {report : BindReport}
  {x : Diagnostic}

theorem faithful_bind (h : ExportSearch.Faithful source modules.names search) (p : Procedure) :
    ExportSearch.Faithful source modules.names (p.bind (search, report)).2.1 := by
  obtain ⟨-, hfind⟩ := ExportSearch.find_spec h p.name
  by_cases hskip : (report.error.isSome || !p.isUnbound) = true
  · rw [bind_skipped hskip]
    exact h
  · simp only [bind, hskip, Bool.false_eq_true, if_false]
    rcases hresult : search.find p.name with ⟨e | _ | m, y⟩ <;> rw [hresult] at hfind <;> exact hfind

theorem reportedAmbiguous_of_bind (hsearch : ExportSearch.Faithful source modules.names search)
    (h : x ∈ (p.bind (search, report)).2.2.diagnostics) (hkind : x.kind = .ambiguousExport) :
    x ∈ report.diagnostics ∨ (p.bind (search, report)).1.ReportedAmbiguous source modules.names x := by
  by_cases hskip : (report.error.isSome || !p.isUnbound) = true
  · rw [bind_skipped hskip] at h
    exact .inl h
  · obtain ⟨hfound, -⟩ := ExportSearch.find_spec hsearch p.name
    rw [source.search_none] at hfound
    simp only [bind, hskip, Bool.false_eq_true, if_false] at h ⊢
    rcases hfind : search.find p.name with ⟨e | _ | m, y⟩
    · rw [hfind] at h
      exact .inl h
    · rw [hfind] at h
      rcases List.mem_append.mp h with h | h
      · exact .inl h
      · obtain rfl := List.mem_singleton.mp h
        cases hkind
    · rw [hfind] at h hfound
      rcases List.mem_append.mp h with h | h
      · exact .inl h
      · rw [← noted_some, noted] at h
        split at h
        · cases h
        · next hothers =>
          exact .inr ⟨m, List.mem_singleton.mp h, hothers, rfl, ExportSource.verdict_eq_some hfound.symm⟩

theorem reportedAmbiguous_of_mapM_bind {ps : List Procedure}
    (hsearch : ExportSearch.Faithful source modules.names search)
    (h : x ∈ (ps.mapM bind (search, report)).2.2.diagnostics) (hkind : x.kind = .ambiguousExport) :
    x ∈ report.diagnostics ∨
      ∃ p ∈ (ps.mapM bind (search, report)).1, p.ReportedAmbiguous source modules.names x := by
  induction ps generalizing search report with
  | nil => exact .inl h
  | cons p rest ih =>
    rw [mapM_cons_apply] at h ⊢
    rcases ih (faithful_bind hsearch p) h with hfirst | ⟨q, hq, hreported⟩
    · rcases reportedAmbiguous_of_bind hsearch hfirst hkind with hbefore | hreported
      · exact .inl hbefore
      · exact .inr ⟨_, List.mem_cons_self .., hreported⟩
    · exact .inr ⟨q, List.mem_cons_of_mem _ hq, hreported⟩

end Procedure

def Diagnostics.Unambiguous (ds : Diagnostics) : Prop :=
  ∀ x ∈ ds, x.kind ≠ .ambiguousExport

theorem Diagnostics.unambiguous_nil : Diagnostics.Unambiguous [] :=
  List.forall_mem_nil _

theorem Diagnostics.unambiguous_append {ds es : Diagnostics} :
    (ds ++ es).Unambiguous ↔ ds.Unambiguous ∧ es.Unambiguous :=
  List.forall_mem_append

theorem Diagnostics.unambiguous_report {kind : DiagnosticKind} (h : kind ≠ .ambiguousExport) {subject : Option Key}
    {message : String} : Diagnostics.Unambiguous [.report kind subject message] :=
  List.forall_mem_singleton.mpr h

theorem Store.unambiguous_commitEntries {α : Type} [Declaration α] {fast : Bool} {counts : Std.HashMap String Nat}
    {reported : List String} {t : Table α} {report : CommitReport} {as : List α} (h : report.diagnostics.Unambiguous) :
    (commitEntries fast counts reported t report as).2.diagnostics.Unambiguous := by
  induction as generalizing reported t report with
  | nil => exact h
  | cons a rest ih =>
    rw [commitEntries]
    split
    · split
      · exact ih h
      · refine ih (Diagnostics.unambiguous_append.mpr ⟨h, ?_⟩)
        exact Diagnostics.unambiguous_report (by decide)
    · split
      · refine ih (Diagnostics.unambiguous_append.mpr ⟨h, ?_⟩)
        split
        · exact Diagnostics.unambiguous_nil
        · exact Diagnostics.unambiguous_report (by decide)
      · exact ih h

theorem Store.unambiguous_commit (s : Store) : s.commit.2.diagnostics.Unambiguous := by
  have htable : ∀ {α : Type} [Declaration α] (t : Table α) (st : Staging α),
      (commitTable s.fastLoad t st).2.2.diagnostics.Unambiguous := by
    intro α _ t st
    exact unambiguous_commitEntries Diagnostics.unambiguous_nil
  obtain ⟨-, -, -, -, hreport⟩ := s.commit_tables
  rw [hreport]
  simp only [CommitReport.append, Diagnostics.unambiguous_append]
  exact ⟨⟨⟨htable _ _, htable _ _⟩, htable _ _⟩, htable _ _⟩

theorem Store.unambiguous_link (s : Store) : s.link.2.diagnostics.Unambiguous :=
  fun x hx => of_decide_eq_true (List.filter_eq_self.mp s.lasting_link x hx)

theorem Store.unambiguous_valuate (maxPasses : Option Nat) (s : Store) :
    (s.valuate maxPasses).2.diagnostics.Unambiguous := by
  unfold valuate
  split
  · exact Diagnostics.unambiguous_nil
  · intro x hx
    obtain ⟨⟨k, n⟩, -, rfl⟩ := List.mem_map.mp hx
    exact kind_unvalued k n _

theorem Store.unambiguous_resolve (options : ResolveOptions) (s : Store) :
    (s.resolve options).2.diagnostics.Unambiguous :=
  Diagnostics.unambiguous_append.mpr ⟨s.unambiguous_link, unambiguous_valuate options.maxPasses s.link.1⟩

theorem Draft.unambiguous_note (s : Store) (j : Job) {d : Draft} (h : d.diagnostics.Unambiguous) :
    (j.note s d).diagnostics.Unambiguous := by
  cases j with
  | declare _ _ => exact h
  | use x =>
    change (noteLength s (x.length? s) d).diagnostics.Unambiguous
    unfold noteLength
    split
    · split
      · exact h
      · exact Diagnostics.unambiguous_append.mpr ⟨h, Diagnostics.unambiguous_report (by decide)⟩
    · exact h

theorem Draft.unambiguous_claim (name : String) (t : NativeType) {d : Draft} (h : d.diagnostics.Unambiguous) :
    (claim name t d).2.diagnostics.Unambiguous := by
  unfold claim
  dsimp only
  split
  · refine Diagnostics.unambiguous_append.mpr ⟨h, ?_⟩
    split
    · exact Diagnostics.unambiguous_report (by decide)
    · exact Diagnostics.unambiguous_nil
  · exact h

theorem Runs.unambiguous {o : EmitOptions} {s : Store} {d d' : Draft} {js : List Job} {us : List Marshalled}
    (h : Runs o s d js us d') (hd : d.diagnostics.Unambiguous) : d'.diagnostics.Unambiguous := by
  induction h with
  | nil d => exact hd
  | @leaf d d' j _ _ _ _ _ ih => exact ih (Draft.unambiguous_note s j hd)
  | @inner d d₁ d' j _ _ _ _ _ _ _ _ ihx ih => exact ih (ihx (Draft.unambiguous_note s j hd))
  | held _ _ _ ih => exact ih hd
  | @fresh d d₁ d₂ d' j js name given t vs us hplan hclaim _ _ ihbody ih =>
    have hclaimed := Draft.unambiguous_claim name t hd
    rw [hclaim] at hclaimed
    rw [Draft.diagnostics_enter] at ihbody
    have hleft : ((Draft.leave t d₁ d₂).declare (bodyDecl o given t vs)).diagnostics = d₂.diagnostics :=
      Draft.diagnostics_leave t d₁ d₂
    rw [hleft] at ih
    exact ih (ihbody hclaimed)

theorem Store.unambiguous_emit? {o : EmitOptions} {s : Store} {e : Emission} (h : s.emit? o = some e) :
    e.diagnostics.Unambiguous := by
  obtain ⟨us, vs, d, -, hruns, rfl⟩ := emit?_eq_some_iff_runs.mp h
  exact hruns.unambiguous Diagnostics.unambiguous_nil

theorem Store.reportedAmbiguous_of_resolveWithSource {options : ResolveOptions} {s : Store} {source : ExportSource}
    {modules : ModuleList} {x : Diagnostic}
    (h : x ∈ (s.resolveWithSource options source modules).2.2.diagnostics) (hkind : x.kind = .ambiguousExport) :
    ∃ p ∈ (s.resolveWithSource options source modules).1.procedures.toList,
      p.ReportedAmbiguous source modules.names x := by
  have hsilent := s.unambiguous_resolve options
  cases hbinds : options.bindsProcedures with
  | false =>
    rw [resolveWithSource_of_not_binds s modules hbinds] at h
    exact absurd hkind (hsilent x h)
  | true =>
    rw [resolveWithSource_of_binds s modules hbinds] at h ⊢
    rcases List.mem_append.mp h with h | h
    · exact absurd hkind (hsilent x h)
    · have hstart := ExportSearch.faithful_start (.refl source) modules
      rcases Procedure.reportedAmbiguous_of_mapM_bind hstart h hkind with hbefore | hreported
      · cases hbefore
      · exact hreported

theorem Procedure.BoundAmong.exists_different {source : ExportSource} {modules : ModuleList} {m : ExportMatch}
    {p : Procedure} (h : p.BoundAmong source modules.names m) (hothers : m.shadowed ≠ []) (hd : modules.Distinct) :
    ∃ a ∈ modules.names, ∃ b ∈ modules.names, ModuleList.sameModule a b = false ∧
      source.offers p.name a = true ∧ source.offers p.name b = true := by
  obtain ⟨other, rest, hshadowed⟩ := List.exists_cons_of_ne_nil hothers
  have hplaces := h.places_eq
  rw [hshadowed] at hplaces
  have hfirst : m.module ∈ modules.names.filter (source.offers p.name) := by simp [hplaces]
  have hother : other ∈ modules.names.filter (source.offers p.name) := by simp [hplaces]
  have hpairs : (m.module :: other :: rest).Pairwise fun a b => ModuleList.sameModule a b = false :=
    hplaces ▸ hd.sublist List.filter_sublist
  obtain ⟨ha, hoffersa⟩ := List.mem_filter.mp hfirst
  obtain ⟨hb, hoffersb⟩ := List.mem_filter.mp hother
  exact ⟨m.module, ha, other, hb, List.rel_of_pairwise_cons hpairs (List.mem_cons_self ..), hoffersa, hoffersb⟩

theorem Config.convert_result_eq (c : Config) (d : DeclarationSet) (source : ExportSource) :
    (c.convert d source).2.2 =
      (((c.committed d).resolveWithSource c.resolution source c.modules).1.emit? c.emission).map
        (.of d.diagnostics (d.stage (c.newStore.setFastLoad c.fastLoad)).commit.2
          ((c.committed d).resolveWithSource c.resolution source c.modules).2.2) := by
  simp only [convert, committed]

variable {text : String} {c : Config}

theorem Typedef.job?_base {s : Store} {d : Typedef} (hd : d ∈ Store.baseTypedefs) : d.job? s = none := by
  rcases Store.base_cases d hd with ⟨b, htarget⟩ | htarget
  · rw [Typedef.job?, htarget, NativeType.canonical, NativeType.canonicalFrom]
    rfl
  · rw [Typedef.job?, htarget, NativeType.canonical, NativeType.canonicalFrom_of_isStructural _ _ rfl]
    rfl

theorem Typedef.items_base {d : Typedef} (hd : d ∈ Store.baseTypedefs) : d.target.items = [] := by
  rcases Store.base_cases d hd with ⟨b, htarget⟩ | htarget <;> simp [htarget, NativeType.void]

theorem Store.exists_emit?_base {o : EmitOptions} {s : Store} {p : Procedure}
    (htypedefs : s.typedefs.toList = baseTypedefs) (hdefinitions : s.definitions.toList = [])
    (hprocedures : s.procedures.toList = [p]) (hreturns : p.returns = .void) (hparams : p.params = []) :
    ∃ e, s.emit? o = some e := by
  have hbodyJobs : s.bodyJobs = [] := by
    rw [bodyJobs, htypedefs, hdefinitions]
    exact List.filterMap_eq_nil_iff.mpr fun d hd => Typedef.job?_base hd
  have hmethodSites : s.methodSites = [⟨.void, .result, p.name ++ "_return"⟩] := by
    rw [methodSites, hprocedures, List.flatMap_singleton, Procedure.sites, hreturns, hparams]
    rfl
  have hleaf : Job.plan o s (.use ⟨.void, .result, p.name ++ "_return"⟩) = .leaf (.builtin o .void) :=
    Job.plan_builtin ..
  obtain ⟨d, hrun⟩ : ∃ d, Runs o s .empty s.jobs ([] ++ [.builtin o .void]) d := by
    rw [jobs, hbodyJobs, hmethodSites]
    exact ⟨_, .leaf hleaf (.nil _)⟩
  exact ⟨_, emit?_eq_some_iff_runs.mpr ⟨_, _, _, by rw [hbodyJobs]; rfl, hrun, rfl⟩⟩

namespace Config

def beep : Procedure :=
  ⟨"Beep", .void, [], none, none⟩

def beeping : DeclarationSet :=
  ⟨[], [], [], [beep], []⟩

def beepers : ExportSource :=
  (ExportSource.empty.withModule "a.dll" ["Beep"]).withModule "b.dll" ["Beep"]

theorem verdict_beepers : beepers.verdict ["a.dll", "b.dll"] "Beep" = .ok (some ⟨"a.dll", ["b.dll"]⟩) := by
  decide +kernel

theorem committed_beeping (h : c.seedsTypedefs = true) :
    let s := c.committed beeping
    s.typedefs.toList = Store.baseTypedefs ∧ s.definitions.toList = [] ∧ s.constants.toList = [] ∧
      s.procedures.toList = [beep] := by
  obtain ⟨hseeded, hdefinitions, hconstants, hprocedures⟩ := tables_newStore h
  have hnew : beeping.IsNewTo c.newStore := by
    refine ⟨nofun, nofun, nofun, fun a _ => ?_⟩
    rw [c.sound_newStore.1.procedures.get?_eq, hprocedures]
    rfl
  have htables := tables_committed ⟨by decide, by decide, by decide, by decide⟩ hnew
  rwa [hseeded, hdefinitions, hconstants, hprocedures] at htables

theorem resolved_beeping (h : c.seedsTypedefs = true) :
    let s := ((c.committed beeping).resolve c.resolution).1
    s.typedefs.toList = Store.baseTypedefs ∧ s.definitions.toList = [] ∧ s.constants.toList = [] ∧
      s.procedures.toList = [beep] := by
  obtain ⟨htypedefs, hdefinitions, hconstants, hprocedures⟩ := committed_beeping h
  generalize c.committed beeping = s at *
  have hitems : s.link.1.items = [] := by
    rw [Store.items_link, Store.items, htypedefs, hdefinitions, hconstants]
    simpa using fun d hd => Typedef.items_base hd
  have hwaits : ¬s.link.1.Waits := by
    rintro ⟨i, hi, -⟩
    rw [hitems] at hi
    cases hi
  have hresolved : (s.resolve c.resolution).1 = s.link.1 := congrArg Prod.fst (Store.valuate_of_not_waits _ hwaits)
  rw [hresolved, Store.link_eq]
  simp only [Table.toList_map, htypedefs, hdefinitions, hconstants, hprocedures, List.map_nil, true_and]
  exact ⟨rfl, rfl⟩

theorem exists_convert_beeping (hbinds : c.resolution.bindsProcedures = true) (hseeds : c.seedsTypedefs = true)
    (hmodules : c.modules = ⟨["a.dll", "b.dll"]⟩) :
    ∃ r, (c.convert beeping beepers).2.2 = some r ∧ ⟨.info, .ambiguousExport, some ⟨.procedure, "Beep"⟩,
      "exported by 'a.dll' and also by 'b.dll'; using 'a.dll'"⟩ ∈ r.diagnostics := by
  obtain ⟨htypedefs, hdefinitions, hconstants, hprocedures⟩ := resolved_beeping hseeds
  rw [convert_result_eq, Store.resolveWithSource_of_binds _ _ hbinds]
  generalize (c.committed beeping).resolve c.resolution = resolved at *
  have hresults : (Inquiry.start beepers c.modules).resultsOf resolved.1.procedures.toList =
      [.ok (some ⟨"a.dll", ["b.dll"]⟩)] := by
    rw [hprocedures, hmodules, ← verdict_beepers, ← ExportSource.search_none]
    exact ExportSearch.findAll_spec (ExportSearch.faithful_start (.refl beepers) ⟨["a.dll", "b.dll"]⟩) ["Beep"]
  obtain ⟨hbound, hreport⟩ := resolved.1.bind_after (.start beepers c.modules)
  rw [hresults] at hbound hreport
  obtain ⟨e, he⟩ := Store.exists_emit?_base (o := c.emission) (s := resolved.1.boundTo [some ⟨"a.dll", ["b.dll"]⟩])
    (p := { beep with module := some "a.dll" }) htypedefs hdefinitions
    (by simp only [Store.boundTo, hprocedures]; rfl) rfl rfl
  rw [hbound, hreport]
  refine ⟨_, Option.map_eq_some_iff.mpr ⟨e, he, rfl⟩, ?_⟩
  refine List.mem_append_left _ (List.mem_append_right _ (List.mem_append_right _ ?_))
  rw [hprocedures]
  exact List.mem_singleton_self _

end Config

theorem Config.ambiguous_of_convert (h : ofText text = .ok c) :
    (c.modules.Distinct ↔ ∀ names, Lists text names → (⟨names⟩ : ModuleList).Distinct) ∧
      (∀ (d : DeclarationSet) (source : ExportSource) (r : Conversion), (c.convert d source).2.2 = some r →
        ∃ reported, r.diagnostics = d.diagnostics ++ reported ∧ ∀ x ∈ reported, x.kind = .ambiguousExport →
          ∃ p ∈ (c.convert d source).1.procedures.toList, p.ReportedAmbiguous source c.modules.names x ∧
            (c.modules.Distinct → ∃ a ∈ c.modules.names, ∃ b ∈ c.modules.names,
              ModuleList.sameModule a b = false ∧ source.offers p.name a = true ∧ source.offers p.name b = true)) ∧
      (∀ (l : ModuleList) (module : String), l.contains module = true → l.push module = l) ∧
      ∀ (l : ModuleList) (modules : List String), (∀ module ∈ modules, l.contains module = true) →
        l.extend modules = l := by
  refine ⟨distinct_modules_iff h, fun d source r hr => ?_, fun l module => ModuleList.push_of_contains,
    fun l modules => ModuleList.extend_of_contains⟩
  rw [convert_result_eq] at hr
  obtain ⟨e, he, rfl⟩ := Option.map_eq_some_iff.mp hr
  refine ⟨_, by simp only [Conversion.of, List.append_assoc]; rfl, fun x hx hkind => ?_⟩
  have hresolved : x ∈ ((c.committed d).resolveWithSource c.resolution source c.modules).2.2.diagnostics := by
    rcases List.mem_append.mp hx with hx | hx
    · exact absurd hkind (Store.unambiguous_commit _ x hx)
    · rcases List.mem_append.mp hx with hx | hx
      · exact hx
      · exact absurd hkind (Store.unambiguous_emit? he x hx)
  obtain ⟨p, hp, m, hx, hothers, hbound⟩ := Store.reportedAmbiguous_of_resolveWithSource hresolved hkind
  rw [convert_store_eq]
  exact ⟨p, hp, ⟨m, hx, hothers, hbound⟩, hbound.exists_different hothers⟩

theorem Config.ambiguous_of_convert_listing :
    let c : Config := { standard with modules := ⟨["a.dll", "b.dll"]⟩ }
    let clash := "exported by 'a.dll' and also by 'b.dll'; using 'a.dll'"
    ofText ((listing ["a.dll", "b.dll"]).pretty 0) = .ok c ∧ c.modules.Distinct ∧
      (∀ (d : DeclarationSet) (source : ExportSource) (r : Conversion), (c.convert d source).2.2 = some r →
        ∀ x ∈ r.diagnostics, x.kind = .ambiguousExport → x ∈ d.diagnostics ∨
          ∃ p ∈ (c.convert d source).1.procedures.toList,
            x = ⟨.info, .ambiguousExport, some ⟨.procedure, p.name⟩, clash⟩) ∧
      ∃ r, (c.convert beeping beepers).2.2 = some r ∧
        ⟨.info, .ambiguousExport, some ⟨.procedure, "Beep"⟩, clash⟩ ∈ r.diagnostics := by
  intro c clash
  have hc : ofText ((listing ["a.dll", "b.dll"]).pretty 0) = .ok c := ofText_listing _
  have hdistinct : c.modules.Distinct := by decide +kernel
  obtain ⟨-, hreported, -⟩ := ambiguous_of_convert hc
  refine ⟨hc, hdistinct, fun d source r hr x hx hkind => ?_, exists_convert_beeping rfl rfl rfl⟩
  obtain ⟨reported, hdiagnostics, hall⟩ := hreported d source r hr
  rw [hdiagnostics] at hx
  rcases List.mem_append.mp hx with hx | hx
  · exact .inl hx
  · obtain ⟨p, hp, ⟨⟨first, others⟩, rfl, hothers, hbound⟩, -⟩ := hall x hx hkind
    have hplaces : ["a.dll", "b.dll"].filter (source.offers p.name) = first :: others := hbound.places_eq
    have hsublist : (first :: others).Sublist ["a.dll", "b.dll"] := hplaces ▸ List.filter_sublist
    have hlength : 2 ≤ (first :: others).length := Nat.succ_le_succ (List.length_pos_of_ne_nil hothers)
    cases hsublist.eq_of_length_le hlength
    exact .inr ⟨p, hp, rfl⟩

end HeaderBinding
