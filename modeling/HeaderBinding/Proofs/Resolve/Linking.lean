import HeaderBinding.Proofs.Native.Rewrite
import HeaderBinding.Proofs.Store.Indexed
import HeaderBinding.Resolve.Linking

namespace HeaderBinding

def Folds {σ ρ α : Type} (h : σ → ρ → σ) (step : StateM σ α) (met : List ρ) (result : α) : Prop :=
  ∀ st, step st = (result, met.foldl h st)

namespace Folds

variable {σ ρ α β γ : Type} {h : σ → ρ → σ}

theorem pure (a : α) : Folds h (Pure.pure a) [] a := fun _ => rfl

theorem map {step : StateM σ α} {met : List ρ} {a : α} (ha : Folds h step met a) (f : α → β) :
    Folds h (do let x ← step; return f x) met (f a) := by
  intro st
  change (match step st with | (x, st) => (f x, st)) = _
  rw [ha st]

theorem seq {step : StateM σ α} {step' : StateM σ β} {met met' : List ρ} {a : α} {b : β}
    (ha : Folds h step met a) (hb : Folds h step' met' b) (f : α → β → γ) :
    Folds h (do let x ← step; let y ← step'; return f x y) (met ++ met') (f a b) := by
  intro st
  change (match step st with | (x, st) => match step' st with | (y, st) => (f x y, st)) = _
  rw [ha st]
  dsimp only
  rw [hb, List.foldl_append]

theorem mapM {step : α → StateM σ β} {met : α → List ρ} {f : α → β} (as : List α)
    (ha : ∀ a ∈ as, Folds h (step a) (met a) (f a)) :
    Folds h (as.mapM step) (as.flatMap met) (as.map f) := by
  induction as with
  | nil => exact pure []
  | cons a rest ih =>
    rw [List.mapM_cons, List.flatMap_cons]
    exact (ha a (List.mem_cons_self ..)).seq (ih fun b hb => ha b (List.mem_cons_of_mem a hb)) List.cons

theorem table {step : α → StateM σ α} {met : α → List ρ} {f : α → α} (t : Table α)
    (ha : ∀ a, Folds h (step a) (met a) (f a)) :
    Folds h (t.mapM step) (t.toList.flatMap met) (t.map f) := by
  have hlist := (Folds.mapM t.toList fun a _ => ha a).map fun entries =>
    ({ t with entries := entries.toArray } : Table α)
  rwa [Table.toList, ← Array.toList_map] at hlist

theorem of_eq {step step' : StateM σ α} {met met' : List ρ} {a a' : α} (ha : Folds h step met a)
    (hstep : step' = step) (hmet : met' = met) (hresult : a' = a) : Folds h step' met' a' := by
  rw [hstep, hmet, hresult]
  exact ha

end Folds

section

variable {σ : Type} {f : Reference → StateM σ Reference} {g : Reference → Reference}
  {h : σ → Reference → σ}

mutual
theorem folds_type (hf : ∀ r, Folds h (f r) [r] (g r)) : ∀ t : NativeType,
    Folds h (t.mapReferencesM f) t.references (t.rewrite g id)
  | .builtin b => (Folds.pure (.builtin b)).of_eq rfl (by simp) rfl
  | .named r => ((hf r).map .named).of_eq rfl (by simp) rfl
  | .enumeration e => (Folds.pure (.enumeration e)).of_eq rfl (by simp) rfl
  | .pointer pointee => ((folds_type hf pointee).map .pointer).of_eq rfl (by simp) rfl
  | .array element rank length =>
    ((folds_type hf element).map (.array · rank length)).of_eq rfl (by simp) rfl
  | .synonym name type => ((folds_type hf type).map (.synonym name)).of_eq rfl (by simp) rfl
  | .record kind ⟨name, members⟩ =>
    ((folds_memberTypes hf members).map fun ms => .record kind ⟨name, ms⟩).of_eq rfl (by simp) rfl
  | .function ⟨name, returns, params, convention⟩ =>
    ((folds_type hf returns).seq (folds_paramTypes hf params) fun returns params =>
      .function ⟨name, returns, params, convention⟩).of_eq rfl (by simp) rfl
termination_by structural t => t

theorem folds_memberTypes (hf : ∀ r, Folds h (f r) [r] (g r)) : ∀ ms : List (Member NativeType),
    Folds h (NativeType.traverseMembers (fun _ => pure ()) f pure ms) (ms.flatMap (·.type.references))
      (NativeType.traverseMembers (m := Id) (fun _ => pure ()) g id ms)
  | [] => .pure []
  | ⟨name, type⟩ :: rest =>
    ((folds_type hf type).seq (folds_memberTypes hf rest) fun type rest =>
      ⟨name, type⟩ :: rest).of_eq rfl rfl rfl
termination_by structural ms => ms

theorem folds_paramTypes (hf : ∀ r, Folds h (f r) [r] (g r)) : ∀ ps : List (Parameter NativeType),
    Folds h (NativeType.traverseParams (fun _ => pure ()) f pure ps) (ps.flatMap (·.type.references))
      (NativeType.traverseParams (m := Id) (fun _ => pure ()) g id ps)
  | [] => .pure []
  | ⟨name, type, direction⟩ :: rest =>
    ((folds_type hf type).seq (folds_paramTypes hf rest) fun type rest =>
      ⟨name, type, direction⟩ :: rest).of_eq rfl rfl rfl
termination_by structural ps => ps
end

end

class LawfulDeclaration (α : Type) [Declaration α] : Prop where
  name_mapRoots : ∀ (f : NativeType → NativeType) (a : α),
    Declaration.name (Declaration.mapRoots f a) = Declaration.name a
  roots_mapRoots : ∀ (f : NativeType → NativeType) (a : α),
    Declaration.roots (Declaration.mapRoots f a) = (Declaration.roots a).map f
  mapRoots_eq_self : ∀ {f : NativeType → NativeType} {a : α},
    (∀ t ∈ Declaration.roots a, f t = t) → Declaration.mapRoots f a = a
  folds_mapRootsM : ∀ {σ ρ : Type} {h : σ → ρ → σ} {step : NativeType → StateM σ NativeType}
    {met : NativeType → List ρ} {f : NativeType → NativeType}, (∀ t, Folds h (step t) (met t) (f t)) →
    ∀ a : α, Folds h (Declaration.mapRootsM step a) ((Declaration.roots a).flatMap met)
      (Declaration.mapRoots f a)

theorem Typedef.mapRoots_eq (f : NativeType → NativeType) (d : Typedef) :
    Declaration.mapRoots f d = { d with target := f d.target } := rfl

theorem Definition.mapRoots_record (f : NativeType → NativeType) (kind : RecordKind)
    (body : Record NativeType) :
    Declaration.mapRoots f (record kind body) =
      record kind ⟨body.name, body.members.map fun x => { x with type := f x.type }⟩ :=
  congrArg (fun ms : Id (List (Member NativeType)) => record kind ⟨body.name, ms⟩)
    (List.mapM_pure (m := Id) (l := body.members)
      (f := fun x => ({ x with type := f x.type } : Member NativeType)))

theorem Procedure.mapRoots_eq (f : NativeType → NativeType) (p : Procedure) :
    Declaration.mapRoots f p =
      { p with returns := f p.returns, params := p.params.map fun x => { x with type := f x.type } } :=
  congrArg (fun ps : Id (List (Parameter NativeType)) =>
      ({ p with returns := f p.returns, params := ps } : Procedure))
    (List.mapM_pure (m := Id) (l := p.params)
      (f := fun x => ({ x with type := f x.type } : Parameter NativeType)))

theorem Definition.shape_mapRoots {f : NativeType → NativeType} (hf : ∀ t, (f t).shape = t.shape) (d : Definition) :
    shape (Declaration.mapRoots f d) = d.shape := by
  cases d with
  | record kind body => simp [mapRoots_record, shape, NativeType.shapeMembers_eq_map, hf]
  | enumeration e => rfl

theorem Procedure.shape_mapRoots {f : NativeType → NativeType} (hf : ∀ t, (f t).shape = t.shape) (p : Procedure) :
    shape (Declaration.mapRoots f p) = p.shape := by
  simp [mapRoots_eq, shape, NativeType.shapeParams_eq_map, hf]

instance : LawfulDeclaration Typedef where
  name_mapRoots _ _ := rfl
  roots_mapRoots _ _ := rfl
  mapRoots_eq_self {f d} h := by
    rw [Typedef.mapRoots_eq, h d.target (List.mem_singleton_self _)]
  folds_mapRootsM {σ ρ h step met f} hf d :=
    ((hf d.target).map fun t => { d with target := t }).of_eq rfl
      (List.flatMap_singleton met d.target) rfl

instance : LawfulDeclaration Definition where
  name_mapRoots f d := by
    cases d with
    | record kind body => rw [Definition.mapRoots_record]; rfl
    | enumeration e => rfl
  roots_mapRoots f d := by
    cases d with
    | record kind body =>
      rw [Definition.mapRoots_record]
      simp [Declaration.roots, Definition.memberTypes]
    | enumeration e => rfl
  mapRoots_eq_self {f d} h := by
    cases d with
    | record kind body =>
      have hmembers : ∀ x ∈ body.members, { x with type := f x.type } = x := by
        intro x hx
        rw [h x.type (List.mem_map_of_mem hx)]
      rw [Definition.mapRoots_record, List.map_congr_left hmembers, List.map_id']
    | enumeration e => rfl
  folds_mapRootsM {σ ρ h step met f} hf d := by
    cases d with
    | record kind body =>
      have hmembers := Folds.mapM body.members fun x _ =>
        (hf x.type).map fun t => ({ x with type := t } : Member NativeType)
      refine (hmembers.map fun ms => Definition.record kind ⟨body.name, ms⟩).of_eq rfl ?_ ?_
      · simp [Declaration.roots, Definition.memberTypes, List.flatMap_map]
      · rw [Definition.mapRoots_record]
    | enumeration e => exact .pure _

instance : LawfulDeclaration Procedure where
  name_mapRoots f p := by
    rw [Procedure.mapRoots_eq]
    rfl
  roots_mapRoots f p := by
    rw [Procedure.mapRoots_eq]
    simp [Declaration.roots]
  mapRoots_eq_self {f p} h := by
    have hparams : ∀ x ∈ p.params, { x with type := f x.type } = x := by
      intro x hx
      rw [h x.type (List.mem_cons_of_mem _ (List.mem_map_of_mem hx))]
    rw [Procedure.mapRoots_eq, h p.returns (List.mem_cons_self ..), List.map_congr_left hparams,
      List.map_id']
  folds_mapRootsM {σ ρ h step met f} hf p := by
    have hparams := Folds.mapM p.params fun x _ =>
      (hf x.type).map fun t => ({ x with type := t } : Parameter NativeType)
    refine ((hf p.returns).seq hparams fun t ps =>
      ({ p with returns := t, params := ps } : Procedure)).of_eq rfl ?_ ?_
    · simp [Declaration.roots, List.flatMap_map]
    · rw [Procedure.mapRoots_eq]

section

variable (T : String → Option Target)

def Reference.linkedBy (r : Reference) : Reference :=
  if r.isLinked then r
  else
    match T r.name with
    | some target => { r with target := some target }
    | none => r

theorem Reference.linkedBy_linkedBy (r : Reference) : (r.linkedBy T).linkedBy T = r.linkedBy T := by
  unfold linkedBy
  by_cases hr : r.isLinked = true
  · simp only [hr, if_true]
  · cases hT : T r.name with
    | none => simp only [hr, hT, if_false, Bool.false_eq_true]
    | some target =>
      simp only [hr, if_false, Bool.false_eq_true]
      rfl

def LinkTally.meet (tally : LinkTally) (r : Reference) : LinkTally :=
  if r.isLinked then { tally with alreadyLinked := tally.alreadyLinked + 1 }
  else
    match T r.name with
    | some _ => { tally with linked := tally.linked + 1 }
    | none => { tally with missing := tally.missing ++ [r.name] }

def LinkTally.of (refs : List Reference) : LinkTally :=
  refs.foldl (meet T) ⟨0, 0, []⟩

theorem LinkTally.meet_linkedBy {tally tally' : LinkTally} (hlinked : tally'.linked = 0)
    (hmissing : tally'.missing = tally.missing) (r : Reference) :
    (tally'.meet T (r.linkedBy T)).linked = 0 ∧
      (tally'.meet T (r.linkedBy T)).missing = (tally.meet T r).missing := by
  unfold meet Reference.linkedBy
  by_cases hr : r.isLinked = true
  · simp only [hr, if_true]
    exact ⟨hlinked, hmissing⟩
  · cases hT : T r.name with
    | none => simp [hr, hT, hlinked, hmissing]
    | some target =>
      simp only [hr, if_false, Bool.false_eq_true]
      exact ⟨hlinked, hmissing⟩

theorem LinkTally.of_linkedBy (refs : List Reference) :
    (of T (refs.map (·.linkedBy T))).linked = 0 ∧
      (of T (refs.map (·.linkedBy T))).missing = (of T refs).missing := by
  have hfold : ∀ (refs : List Reference) (tally tally' : LinkTally), tally'.linked = 0 →
      tally'.missing = tally.missing →
      ((refs.map (·.linkedBy T)).foldl (meet T) tally').linked = 0 ∧
        ((refs.map (·.linkedBy T)).foldl (meet T) tally').missing =
          (refs.foldl (meet T) tally).missing := by
    intro refs
    induction refs with
    | nil => exact fun _ _ hlinked hmissing => ⟨hlinked, hmissing⟩
    | cons r rest ih =>
      intro tally tally' hlinked hmissing
      obtain ⟨hlinked', hmissing'⟩ := meet_linkedBy T hlinked hmissing r
      exact ih _ _ hlinked' hmissing'
  exact hfold refs ⟨0, 0, []⟩ ⟨0, 0, []⟩ rfl rfl

def LinkReport.meet (report : LinkReport) (subject : Key × List Reference) : LinkReport where
  linked := report.linked + (LinkTally.of T subject.2).linked
  alreadyLinked := report.alreadyLinked + (LinkTally.of T subject.2).alreadyLinked
  unresolved := report.unresolved + (LinkTally.of T subject.2).missing.length
  diagnostics := report.diagnostics ++
    (LinkTally.of T subject.2).missing.eraseDups.map (Store.unknownType subject.1)

theorem LinkReport.foldl_linkedBy (subjects : List (Key × List Reference))
    {report report' : LinkReport} (hlinked : report'.linked = 0)
    (hunresolved : report'.unresolved = report.unresolved)
    (hdiagnostics : report'.diagnostics = report.diagnostics) :
    let after := (subjects.map fun x => (x.1, x.2.map (·.linkedBy T))).foldl (meet T) report'
    after.linked = 0 ∧ after.unresolved = (subjects.foldl (meet T) report).unresolved ∧
      after.diagnostics = (subjects.foldl (meet T) report).diagnostics := by
  induction subjects generalizing report report' with
  | nil => exact ⟨hlinked, hunresolved, hdiagnostics⟩
  | cons x rest ih =>
    obtain ⟨htally, hmissing⟩ := LinkTally.of_linkedBy T x.2
    refine ih ?_ ?_ ?_
    · simp only [meet, hlinked, htally]
    · simp only [meet, hunresolved, hmissing]
    · simp only [meet, hdiagnostics, hmissing]

end

namespace Store

variable {s t : Store}

theorem folds_linkReference (s : Store) (r : Reference) :
    Folds (LinkTally.meet s.targetOf?) (s.linkReference r) [r] (r.linkedBy s.targetOf?) := by
  intro tally
  rw [List.foldl_cons, List.foldl_nil]
  unfold linkReference LinkTally.meet Reference.linkedBy
  split
  · rfl
  · cases s.targetOf? r.name <;> rfl

section

variable {α : Type} [Declaration α] [LawfulDeclaration α]

def relink (T : String → Option Target) (a : α) : α :=
  Declaration.mapRoots (NativeType.rewrite (·.linkedBy T) id) a

def subject (a : α) : Key × List Reference :=
  (Declaration.key a, Declaration.references a)

theorem name_relink (T : String → Option Target) (a : α) :
    Declaration.name (relink T a) = Declaration.name a :=
  LawfulDeclaration.name_mapRoots _ a

theorem subject_relink (T : String → Option Target) (a : α) :
    subject (relink T a) = ((subject a).1, (subject a).2.map (·.linkedBy T)) := by
  simp only [subject, Declaration.key, Declaration.references, relink,
    LawfulDeclaration.name_mapRoots, LawfulDeclaration.roots_mapRoots, List.flatMap_map,
    NativeType.references_rewrite, List.map_flatMap]

theorem relink_eq_self {T : String → Option Target} {a : α}
    (h : ∀ r ∈ Declaration.references a, r.linkedBy T = r) : relink T a = a := by
  refine LawfulDeclaration.mapRoots_eq_self fun t ht => ?_
  refine NativeType.rewrite_eq_self (fun r hr => h r ?_) fun _ _ => rfl
  exact List.mem_flatMap.mpr ⟨t, ht, hr⟩

theorem folds_linkDeclaration (s : Store) (a : α) :
    Folds (LinkReport.meet s.targetOf?) (s.linkDeclaration a) [subject a]
      (relink s.targetOf? a) := by
  intro report
  have hroots : Folds (LinkTally.meet s.targetOf?) (Declaration.mapReferencesM s.linkReference a)
      (Declaration.references a) (relink s.targetOf? a) :=
    LawfulDeclaration.folds_mapRootsM (folds_type (folds_linkReference s)) a
  unfold linkDeclaration
  rw [hroots]
  rfl

end

def subjects (s : Store) : List (Key × List Reference) :=
  s.typedefs.toList.map subject ++
    (s.definitions.toList.map subject ++ s.procedures.toList.map subject)

theorem link_eq (s : Store) :
    s.link =
      ({ s with
        typedefs := s.typedefs.map (relink s.targetOf?)
        definitions := s.definitions.map (relink s.targetOf?)
        procedures := s.procedures.map (relink s.targetOf?) },
        s.subjects.foldl (LinkReport.meet s.targetOf?) .empty) := by
  have htypedefs := Folds.table s.typedefs (folds_linkDeclaration s)
  have hdefinitions := Folds.table s.definitions (folds_linkDeclaration s)
  have hprocedures := Folds.table s.procedures (folds_linkDeclaration s)
  have htables := htypedefs.seq (hdefinitions.seq hprocedures Prod.mk) fun typedefs others =>
    ({ s with typedefs := typedefs, definitions := others.1, procedures := others.2 } : Store)
  have hrun := htables .empty
  rw [subjects, List.map_eq_flatMap, List.map_eq_flatMap, List.map_eq_flatMap]
  exact hrun

theorem targetOf?_congr {f : Typedef → Typedef} {g : Definition → Definition}
    (hf : ∀ d, Declaration.name (f d) = Declaration.name d)
    (hg : ∀ d, Declaration.name (g d) = Declaration.name d) (htypedefs : t.typedefs = s.typedefs.map f)
    (hdefinitions : t.definitions = s.definitions.map g) : t.targetOf? = s.targetOf? := by
  funext name
  unfold targetOf? byName?
  rw [htypedefs, hdefinitions, Table.get?_map hf, Table.get?_map hg]
  cases s.definitions.get? name with
  | some d => exact congrArg (fun n => some (Target.declaration (.definedType n))) (hg d)
  | none =>
    cases s.typedefs.get? name with
    | some d => exact congrArg (fun n => some (Target.declaration (.synonym n))) (hf d)
    | none => rfl

theorem targetOf?_link (s : Store) : s.link.1.targetOf? = s.targetOf? := by
  rw [link_eq]
  exact targetOf?_congr (name_relink s.targetOf?) (name_relink s.targetOf?) rfl rfl

theorem subjects_link (s : Store) :
    s.link.1.subjects = s.subjects.map fun x => (x.1, x.2.map (·.linkedBy s.targetOf?)) := by
  rw [link_eq]
  simp only [subjects, Table.toList_map, List.map_append, List.map_map, Function.comp_def,
    subject_relink]

theorem link_of_linked (htarget : t.targetOf? = s.targetOf?)
    (hsubjects : t.subjects = s.link.1.subjects) :
    t.link.1 = t ∧ t.link.2.linked = 0 ∧ t.link.2.unresolved = s.link.2.unresolved ∧
      t.link.2.diagnostics = s.link.2.diagnostics := by
  rw [subjects_link] at hsubjects
  have hfixed : ∀ x ∈ t.subjects, ∀ r ∈ x.2, r.linkedBy s.targetOf? = r := by
    intro x hx r hr
    rw [hsubjects] at hx
    obtain ⟨y, -, rfl⟩ := List.mem_map.mp hx
    obtain ⟨r', -, rfl⟩ := List.mem_map.mp hr
    exact r'.linkedBy_linkedBy s.targetOf?
  have htypedefs : t.typedefs.map (relink s.targetOf?) = t.typedefs :=
    Table.map_eq_self fun a ha => relink_eq_self (hfixed (subject a)
      (List.mem_append_left _ (List.mem_map_of_mem ha)))
  have hdefinitions : t.definitions.map (relink s.targetOf?) = t.definitions :=
    Table.map_eq_self fun a ha => relink_eq_self (hfixed (subject a)
      (List.mem_append_right _ (List.mem_append_left _ (List.mem_map_of_mem ha))))
  have hprocedures : t.procedures.map (relink s.targetOf?) = t.procedures :=
    Table.map_eq_self fun a ha => relink_eq_self (hfixed (subject a)
      (List.mem_append_right _ (List.mem_append_right _ (List.mem_map_of_mem ha))))
  rw [link_eq t, link_eq s, htarget, htypedefs, hdefinitions, hprocedures, hsubjects]
  exact ⟨rfl, LinkReport.foldl_linkedBy s.targetOf? s.subjects rfl rfl rfl⟩

end Store

end HeaderBinding
