import HeaderBinding.Proofs.Emission.Run

namespace HeaderBinding

open Managed (TypeDecl Method Field)

def Typedef.job? (s : Store) (d : Typedef) : Option Job :=
  let c := d.target.canonical s
  match c.denoted with
  | .structural (.record kind body) => some (.declare (bodyName body.name c.owner d.name) (.record kind body))
  | .structural (.enumeration e) => some (.declare (bodyName e.name c.owner d.name) (.enumeration e))
  | .structural (.function f) => some (.declare (bodyName f.name c.owner d.name) (.function f))
  | _ => none

def Definition.job (d : Definition) : Job :=
  .declare d.name d.toType

def Procedure.sites (p : Procedure) : List Site :=
  methodSites p.name p.returns p.params

def importedMethod (o : EmitOptions) (p : Procedure) (us : List Marshalled) : Method :=
  let m := methodOf p.name p.params us
  { m with attributes := m.attributes ++ [importAttribute o p] }

def methodsOf (o : EmitOptions) : List Procedure → List Marshalled → List Method
  | [], _ => []
  | p :: ps, us => importedMethod o p (us.take p.sites.length) :: methodsOf o ps (us.drop p.sites.length)

def fieldsOfConstants (bounds : Std.HashSet String) (cs : List Constant) : List Field :=
  cs.filterMap fun c => c.value.map (constantField (bounds.contains c.name) c.name)

def unvaluedConstants (cs : List Constant) : List SkippedItem :=
  (cs.filter (·.value.isNone)).map fun c => ⟨Declaration.key c, none, "value never resolved"⟩

namespace Store

def bodyJobs (s : Store) : List Job :=
  s.definitions.toList.map Definition.job ++ s.typedefs.toList.filterMap (Typedef.job? s)

def methodSites (s : Store) : List Site :=
  s.procedures.toList.flatMap Procedure.sites

def jobs (s : Store) : List Job :=
  s.bodyJobs ++ s.methodSites.map .use

def emission (o : EmitOptions) (s : Store) (us : List Marshalled) (d : Draft) : Emission :=
  ⟨⟨d.types.toList ++ (container o.constantsClass (fieldsOfConstants d.bounds s.constants.toList) [] ++
      container o.methodsClass [] (methodsOf o s.procedures.toList us))⟩,
    d.diagnostics, d.skipped ++ unvaluedConstants s.constants.toList⟩

end Store

variable {o : EmitOptions} {s : Store} {use : NativeType → Position → String → Emit Marshalled} {d d' : Draft}

theorem perform_declare (name : String) (t : NativeType) :
    (do let _ ← declareBody o use name t) = (fun _ => ()) <$> Job.perform o s use (.declare name t) := by
  have hperform : Job.perform o s use (.declare name t) = Marshalled.plain <$> declareBody o use name t := rfl
  rw [hperform]
  simp

theorem perform_definition (x : Definition) : emitDefinition use x = (fun _ => ()) <$> x.job.perform o s use := by
  cases x with
  | record kind body =>
    unfold emitDefinition
    dsimp only
    rw [emitRecord_eq (o := o)]
    exact perform_declare body.name (.record kind body)
  | enumeration e => exact perform_declare e.name (.enumeration e)

theorem perform_typedef (x : Typedef) :
    emitTypedef o s use x = (x.job? s).elim (pure ()) fun j => (fun _ => ()) <$> j.perform o s use := by
  unfold emitTypedef Typedef.job?
  dsimp only
  cases (x.target.canonical s).denoted with
  | structural t =>
    cases t with
    | record kind body =>
      dsimp only
      rw [emitRecord_eq (o := o)]
      exact perform_declare ..
    | enumeration e => exact perform_declare ..
    | function f =>
      dsimp only
      rw [emitDelegate_eq]
      exact perform_declare ..
    | _ => rfl
  | _ => rfl

theorem forM_eq_map {α β : Type} {f : α → Emit Unit} {g : β → Emit Marshalled} {job? : α → Option β}
    (hf : ∀ a, f a = (job? a).elim (pure ()) fun b => (fun _ => ()) <$> g b) (as : List α) :
    as.forM f = (fun _ => ()) <$> (as.filterMap job?).mapM g := by
  induction as with
  | nil => rfl
  | cons a as ih =>
    have hstep : (a :: as).forM f = f a >>= fun _ => as.forM f := rfl
    rw [hstep, hf, ih, List.filterMap_cons]
    cases job? a with
    | none => simp
    | some b => simp

theorem emitBodies_eq :
    (do s.definitions.toList.forM (emitDefinition use); s.typedefs.toList.forM (emitTypedef o s use)) =
      (fun _ => ()) <$> s.bodyJobs.mapM (Job.perform o s use) := by
  have hdefinitions : s.definitions.toList.forM (emitDefinition use) =
      (fun _ => ()) <$> (s.definitions.toList.filterMap (some ∘ Definition.job)).mapM (Job.perform o s use) :=
    forM_eq_map perform_definition _
  rw [hdefinitions, forM_eq_map perform_typedef, Store.bodyJobs, List.mapM_append, List.filterMap_eq_map]
  simp

theorem perform_procedure (p : Procedure) :
    emitProcedure o use p = importedMethod o p <$> p.sites.mapM (useAt use) := by
  unfold emitProcedure
  rw [emitMethod_eq, bind_assoc, ← bind_pure_comp]
  exact bind_congr fun us => pure_bind _ _

theorem length_of_mapM {α β : Type} {f : α → Emit β} {as : List α} {bs : List β} (h : as.mapM f d = some (bs, d')) :
    bs.length = as.length := by
  induction as generalizing d bs with
  | nil =>
    cases h
    rfl
  | cons a as ih =>
    rw [List.mapM_cons] at h
    obtain ⟨b, d₁, -, h⟩ := Emit.bind_eq_some h
    obtain ⟨bs, d₂, hrest, h⟩ := Emit.bind_eq_some h
    cases h
    exact congrArg Nat.succ (ih hrest)

theorem methodsOf_cons (o : EmitOptions) (p : Procedure) (ps : List Procedure) {us : List Marshalled}
    (h : us.length = p.sites.length) (vs : List Marshalled) :
    methodsOf o (p :: ps) (us ++ vs) = importedMethod o p us :: methodsOf o ps vs := by
  rw [methodsOf, ← h, List.take_left, List.drop_left]

theorem mapM_emitProcedure_iff {ps : List Procedure} {ms : List Method} :
    ps.mapM (emitProcedure o use) d = some (ms, d') ↔
      ∃ us, (ps.flatMap Procedure.sites).mapM (useAt use) d = some (us, d') ∧ ms = methodsOf o ps us := by
  induction ps generalizing d ms with
  | nil =>
    constructor
    · intro h
      cases h
      exact ⟨[], rfl, rfl⟩
    · rintro ⟨us, h, rfl⟩
      cases h
      rfl
  | cons p ps ih =>
    rw [List.mapM_cons, List.flatMap_cons, List.mapM_append]
    constructor
    · intro h
      obtain ⟨m, d₁, hm, h⟩ := Emit.bind_eq_some h
      obtain ⟨ms, d₂, hms, h⟩ := Emit.bind_eq_some h
      cases h
      rw [perform_procedure] at hm
      obtain ⟨us, hus, rfl⟩ := Emit.map_eq_some hm
      obtain ⟨vs, hvs, rfl⟩ := ih.mp hms
      refine ⟨us ++ vs, ?_, (methodsOf_cons o p ps (length_of_mapM hus) vs).symm⟩
      rw [Emit.bind_eq hus, Emit.bind_eq hvs]
      rfl
    · rintro ⟨ws, h, rfl⟩
      obtain ⟨us, d₁, hus, h⟩ := Emit.bind_eq_some h
      obtain ⟨vs, d₂, hvs, h⟩ := Emit.bind_eq_some h
      cases h
      have hm : emitProcedure o use p d = some (importedMethod o p us, d₁) := by
        rw [perform_procedure]
        exact Emit.map_eq hus _
      rw [methodsOf_cons o p ps (length_of_mapM hus), Emit.bind_eq hm, Emit.bind_eq (ih.mpr ⟨vs, hvs, rfl⟩)]
      rfl

theorem mapM_emitConstant (cs : List Constant) (d : Draft) :
    ∃ fields, cs.mapM emitConstant d = some (fields, { d with skipped := d.skipped ++ unvaluedConstants cs }) ∧
      fields.filterMap id = fieldsOfConstants d.bounds cs := by
  induction cs generalizing d with
  | nil =>
    refine ⟨[], ?_, rfl⟩
    rw [unvaluedConstants, List.filter_nil, List.map_nil, List.append_nil]
    rfl
  | cons c cs ih =>
    rw [List.mapM_cons]
    cases hvalue : c.value with
    | some v =>
      obtain ⟨fields, hfields, heq⟩ := ih d
      have hc : emitConstant c d = some (some (constantField (d.bounds.contains c.name) c.name v), d) := by
        unfold emitConstant
        rw [hvalue]
        rfl
      refine ⟨some (constantField (d.bounds.contains c.name) c.name v) :: fields, ?_, ?_⟩
      · rw [Emit.bind_eq hc, Emit.bind_eq hfields, unvaluedConstants, unvaluedConstants,
          List.filter_cons_of_neg (by simp [hvalue])]
        rfl
      · rw [List.filterMap_cons, heq, fieldsOfConstants, fieldsOfConstants, List.filterMap_cons, hvalue]
        rfl
    | none =>
      obtain ⟨fields, hfields, heq⟩ := ih (d.skip ⟨Declaration.key c, none, "value never resolved"⟩)
      have hc : emitConstant c d = some (none, d.skip ⟨Declaration.key c, none, "value never resolved"⟩) := by
        unfold emitConstant
        rw [hvalue]
        rfl
      refine ⟨none :: fields, ?_, ?_⟩
      · rw [Emit.bind_eq hc, Emit.bind_eq hfields, unvaluedConstants, unvaluedConstants,
          List.filter_cons_of_pos (by simp [hvalue])]
        simp [Draft.skip]
        rfl
      · rw [List.filterMap_cons, fieldsOfConstants, List.filterMap_cons, hvalue]
        exact heq

theorem emitStore_of_runs {us vs : List Marshalled} {d₁ d₂ : Draft} (hbodies : Runs o s d s.bodyJobs us d₁)
    (hmethods : Runs o s d₁ (s.methodSites.map .use) vs d₂) :
    ∃ depth, emitStore o s (marshalWithin o s depth) d =
      some (container o.constantsClass (fieldsOfConstants d₂.bounds s.constants.toList) [] ++
          container o.methodsClass [] (methodsOf o s.procedures.toList vs),
        { d₂ with skipped := d₂.skipped ++ unvaluedConstants s.constants.toList }) := by
  obtain ⟨least, hleast⟩ := hbodies.perform
  obtain ⟨least', hleast'⟩ := hmethods.perform
  refine ⟨max least least' + 1, ?_⟩
  have hus := hleast (max least least' + 1) (by omega)
  have hvs := hleast' (max least least') (by omega)
  rw [← mapM_useAt_succ] at hvs
  have hms := mapM_emitProcedure_iff (o := o).mpr ⟨vs, hvs, rfl⟩
  obtain ⟨fields, hfields, heq⟩ := mapM_emitConstant s.constants.toList d₂
  unfold emitStore
  rw [← heq, ← bind_assoc, emitBodies_eq, Emit.bind_eq (Emit.map_eq hus _), Emit.bind_eq hms, Emit.bind_eq hfields]
  rfl

theorem runs_of_emitStore {depth : Nat} {classes : List TypeDecl}
    (h : emitStore o s (marshalWithin o s depth) d = some (classes, d')) :
    ∃ us vs d₁ d₂, Runs o s d s.bodyJobs us d₁ ∧ Runs o s d₁ (s.methodSites.map .use) vs d₂ ∧
      classes = container o.constantsClass (fieldsOfConstants d₂.bounds s.constants.toList) [] ++
          container o.methodsClass [] (methodsOf o s.procedures.toList vs) ∧
      d' = { d₂ with skipped := d₂.skipped ++ unvaluedConstants s.constants.toList } := by
  unfold emitStore at h
  rw [← bind_assoc, emitBodies_eq] at h
  obtain ⟨_, d₁, hbodies, h⟩ := Emit.bind_eq_some h
  obtain ⟨us, hus, -⟩ := Emit.map_eq_some hbodies
  obtain ⟨ms, d₂, hms, h⟩ := Emit.bind_eq_some h
  obtain ⟨vs, hvs, rfl⟩ := mapM_emitProcedure_iff.mp hms
  obtain ⟨fields, hfields, heq⟩ := mapM_emitConstant s.constants.toList d₂
  rw [Emit.bind_eq hfields, heq] at h
  cases h
  exact ⟨us, vs, d₁, d₂, runs_of_perform hus, runs_of_mapM_useAt hvs, rfl, rfl⟩

theorem Store.emit?_eq_some_iff_runs {e : Emission} :
    s.emit? o = some e ↔ ∃ us vs d, us.length = s.bodyJobs.length ∧ Runs o s .empty s.jobs (us ++ vs) d ∧
      e = s.emission o vs d := by
  rw [emit?_eq_some_iff]
  constructor
  · rintro ⟨depth, h⟩
    unfold emitWithin at h
    obtain ⟨⟨classes, d⟩, hrun, hresult⟩ := Option.bind_eq_some_iff.mp h
    obtain ⟨us, vs, d₁, d₂, hbodies, hmethods, rfl, rfl⟩ := runs_of_emitStore hrun
    cases hresult
    exact ⟨us, vs, d₂, hbodies.length_eq, hbodies.append hmethods, rfl⟩
  · rintro ⟨us, vs, d, hlength, hrun, rfl⟩
    obtain ⟨us', vs', d₁, heq, hbodies, hmethods⟩ := hrun.of_append
    obtain ⟨rfl, rfl⟩ := List.append_inj heq (hlength.trans hbodies.length_eq.symm)
    obtain ⟨depth, hdepth⟩ := emitStore_of_runs hbodies hmethods
    refine ⟨depth, ?_⟩
    unfold emitWithin
    exact Option.bind_eq_some_iff.mpr ⟨_, hdepth, rfl⟩

end HeaderBinding
