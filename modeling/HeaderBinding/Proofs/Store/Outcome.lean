import HeaderBinding.Proofs.Store.Staged

namespace HeaderBinding.Store

open Declaration (name)

section

variable {α : Type} [Declaration α] {t t' : Table α} {s s' : Staging α}

theorem IsMoved.perm {held held' staged staged' : List α} (hheld : held.Perm held') (h : staged.Perm staged') (a : α) :
    IsMoved held staged a ↔ IsMoved held' staged' a := by
  have htimes : times staged (name a) = times staged' (name a) := (h.map name).count_eq (name a)
  rw [IsMoved, IsMoved, htimes]
  exact and_congr_right fun _ => forall_congr' fun b => imp_congr_left hheld.mem_iff

theorem moved_perm {held held' staged staged' : List α} (hheld : held.Perm held') (h : staged.Perm staged') :
    (moved held staged).Perm (moved held' staged') := by
  have hsame : staged.filter (IsMoved held staged ·) = staged.filter (IsMoved held' staged' ·) :=
    List.filter_congr fun a _ => decide_eq_decide.mpr (IsMoved.perm hheld h a)
  rw [moved, hsame]
  exact h.filter _

theorem length_moved_add (held staged : List α) :
    (moved held staged).length + (staged.filter (¬IsMoved held staged ·)).length = staged.length := by
  rw [moved, ← List.countP_eq_length_filter, ← List.countP_eq_length_filter]
  simp only [List.length_eq_countP_add_countP (IsMoved held staged ·), decide_eq_true_eq]

end

structure CommitsTo (s t : Store) (report : CommitReport) : Prop where
  typedefs : t.typedefs.toList = s.typedefs.toList ++ moved s.typedefs.toList s.stagedTypedefs.toList
  definitions : t.definitions.toList = s.definitions.toList ++ moved s.definitions.toList s.stagedDefinitions.toList
  constants : t.constants.toList = s.constants.toList ++ moved s.constants.toList s.stagedConstants.toList
  procedures : t.procedures.toList = s.procedures.toList ++ moved s.procedures.toList s.stagedProcedures.toList
  idle : t.pending = 0
  mode : t.fastLoad = s.fastLoad
  committed : s.size + report.committed = t.size
  skipped : report.committed + report.skipped = s.pending
  diagnostics : report.diagnostics = findings s.typedefs.toList s.stagedTypedefs.toList ++
    findings s.definitions.toList s.stagedDefinitions.toList ++
    findings s.constants.toList s.stagedConstants.toList ++
    findings s.procedures.toList s.stagedProcedures.toList

structure Restaged (s t : Store) : Prop where
  typedefs : s.typedefs.toList = t.typedefs.toList
  definitions : s.definitions.toList = t.definitions.toList
  constants : s.constants.toList = t.constants.toList
  procedures : s.procedures.toList = t.procedures.toList
  stagedTypedefs : s.stagedTypedefs.toList.Perm t.stagedTypedefs.toList
  stagedDefinitions : s.stagedDefinitions.toList.Perm t.stagedDefinitions.toList
  stagedConstants : s.stagedConstants.toList.Perm t.stagedConstants.toList
  stagedProcedures : s.stagedProcedures.toList.Perm t.stagedProcedures.toList

structure SameDeclarations (s t : Store) : Prop where
  typedefs : s.typedefs.toList.Perm t.typedefs.toList
  definitions : s.definitions.toList.Perm t.definitions.toList
  constants : s.constants.toList.Perm t.constants.toList
  procedures : s.procedures.toList.Perm t.procedures.toList

variable {s t : Store}

theorem SameDeclarations.find?_eq (h : s.SameDeclarations t) (hs : s.Indexed) (ht : t.Indexed) (k : Key) :
    s.find? k = t.find? k := by
  obtain ⟨category, n⟩ := k
  cases category with
  | synonym => simp only [find?, hs.typedefs.get?_perm ht.typedefs h.typedefs]
  | definedType => simp only [find?, hs.definitions.get?_perm ht.definitions h.definitions]
  | constant => simp only [find?, hs.constants.get?_perm ht.constants h.constants]
  | procedure => simp only [find?, hs.procedures.get?_perm ht.procedures h.procedures]

theorem commitsTo_commit (hs : s.Sound) : s.CommitsTo s.commit.1 s.commit.2 := by
  obtain ⟨htypedefs, hreportT⟩ := commitTable_eq s.fastLoad hs.typedefs hs.stagedTypedefs
  obtain ⟨hdefinitions, hreportD⟩ := commitTable_eq s.fastLoad hs.definitions hs.stagedDefinitions
  obtain ⟨hconstants, hreportC⟩ := commitTable_eq s.fastLoad hs.constants hs.stagedConstants
  obtain ⟨hprocedures, hreportP⟩ := commitTable_eq s.fastLoad hs.procedures hs.stagedProcedures
  obtain ⟨ht, hd, hc, hp, hreport⟩ := commit_tables s
  rw [hreportT, hreportD, hreportC, hreportP] at hreport
  rw [htypedefs] at ht
  rw [hdefinitions] at hd
  rw [hconstants] at hc
  rw [hprocedures] at hp
  rw [hreport]
  have hsize : ∀ {α : Type} (u : Table α), u.size = u.toList.length := fun _ => rfl
  refine ⟨ht, hd, hc, hp, pending_commit s, ?_, ?_, ?_, rfl⟩
  · unfold commit
    split <;> rfl
  · simp only [size, hsize, ht, hd, hc, hp, List.length_append, CommitReport.append]
    omega
  · have hmoved := length_moved_add s.typedefs.toList s.stagedTypedefs.toList
    have hmovedD := length_moved_add s.definitions.toList s.stagedDefinitions.toList
    have hmovedC := length_moved_add s.constants.toList s.stagedConstants.toList
    have hmovedP := length_moved_add s.procedures.toList s.stagedProcedures.toList
    simp only [pending, ← Staging.length_toList, CommitReport.append]
    omega

theorem commit_outcome (hs : s.Sound) :
    s.CommitsTo s.commit.1 s.commit.2 ∧
      ∀ t : Store, t.Sound → s.Restaged t →
        s.commit.1.SameDeclarations t.commit.1 ∧ ∀ k, s.commit.1.find? k = t.commit.1.find? k := by
  refine ⟨commitsTo_commit hs, fun t ht hst => ?_⟩
  have hsame : s.commit.1.SameDeclarations t.commit.1 := by
    have hcommitted := commitsTo_commit hs
    have hcommitted' := commitsTo_commit ht
    constructor
    · rw [hcommitted.typedefs, hcommitted'.typedefs, hst.typedefs]
      exact (moved_perm (.refl _) hst.stagedTypedefs).append_left _
    · rw [hcommitted.definitions, hcommitted'.definitions, hst.definitions]
      exact (moved_perm (.refl _) hst.stagedDefinitions).append_left _
    · rw [hcommitted.constants, hcommitted'.constants, hst.constants]
      exact (moved_perm (.refl _) hst.stagedConstants).append_left _
    · rw [hcommitted.procedures, hcommitted'.procedures, hst.procedures]
      exact (moved_perm (.refl _) hst.stagedProcedures).append_left _
  exact ⟨hsame, hsame.find?_eq (sound_commit hs).toIndexed (sound_commit ht).toIndexed⟩

def holdingOne (ops : List Operation) : Store :=
  (empty.run (.add (.constant ⟨"A", "1", .declared, none⟩) :: .commit :: ops)).1

def clashingAdds : List Operation :=
  [.add (.constant ⟨"A", "2", .declared, none⟩), .add (.constant ⟨"B", "3", .declared, none⟩),
    .add (.constant ⟨"C", "4", .declared, none⟩), .add (.constant ⟨"C", "5", .declared, none⟩)]

theorem commit_outcome_clashing :
    (holdingOne clashingAdds).CommitsTo (holdingOne clashingAdds).commit.1 (holdingOne clashingAdds).commit.2 ∧
      (holdingOne clashingAdds).commit.2.diagnostics =
        [⟨.error, .duplicateDeclaration, some ⟨.constant, "A"⟩,
            "constant 'A' conflicts with the committed declaration; keeping the committed one"⟩,
          ⟨.error, .duplicateDeclaration, some ⟨.constant, "C"⟩, "constant 'C' staged 2 times; none committed"⟩] ∧
      (holdingOne clashingAdds).commit.1.SameDeclarations
        (holdingOne (.setFastLoad true :: clashingAdds.reverse)).commit.1 := by
  have hs : (holdingOne clashingAdds).Sound := sound_run sound_empty _
  have ht : (holdingOne (.setFastLoad true :: clashingAdds.reverse)).Sound := sound_run sound_empty _
  have hconstants : (holdingOne clashingAdds).stagedConstants.toList.Perm
      (holdingOne (.setFastLoad true :: clashingAdds.reverse)).stagedConstants.toList :=
    (List.reverse_perm _).symm
  obtain ⟨hcommit, horder⟩ := commit_outcome hs
  refine ⟨hcommit, ?_, (horder _ ht ⟨rfl, rfl, rfl, rfl, .refl _, .refl _, hconstants, .refl _⟩).1⟩
  have hfirst := commitsTo_commit (s := empty.addConstant ⟨"A", "1", .declared, none⟩) (sound_run sound_empty
    [.add (.constant ⟨"A", "1", .declared, none⟩)])
  have hheld : (holdingOne clashingAdds).constants.toList = [⟨"A", "1", .declared, none⟩] := hfirst.constants
  rw [hcommit.diagnostics, hheld]
  decide +kernel

end HeaderBinding.Store
