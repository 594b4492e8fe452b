import HeaderBinding.Convert.Input
import HeaderBinding.Proofs.Store.FastLoad

namespace HeaderBinding

open Declaration (name sameContent)

namespace Staging

variable {α : Type} [Declaration α] {counting : Bool}

theorem toList_foldl_push (s : Staging α) (as : List α) : (as.foldl (push counting) s).toList = s.toList ++ as := by
  induction as generalizing s with
  | nil => simp
  | cons a rest ih => simp [ih]

theorem Counted.foldl_push {s : Staging α} (h : s.Counted counting) (as : List α) :
    (as.foldl (Staging.push counting) s).Counted counting := by
  induction as generalizing s with
  | nil => exact h
  | cons a rest ih => exact ih (h.push a)

end Staging

def Table.rejects {α : Type} [Declaration α] (t : Table α) (a : α) : Bool :=
  (t.get? (name a)).any fun b => !sameContent b a

namespace Store

section

variable {α : Type} [Declaration α] (fast : Bool) {t : Table α} {s : Staging α} {counting : Bool}

theorem firsts_of_nodup {entries : List α} (hd : (entries.map name).Nodup) : firsts entries = entries := by
  induction entries with
  | nil => rfl
  | cons a rest ih =>
    rw [List.map_cons, List.nodup_cons] at hd
    have hrest : rest.filter (name · ≠ name a) = rest :=
      List.filter_eq_self.mpr fun b hb => decide_eq_true fun heq => hd.1 (heq ▸ List.mem_map_of_mem hb)
    rw [firsts_cons, hrest, ih hd.2]

theorem times_of_nodup {staged : List α} (hd : (staged.map name).Nodup) : ∀ a ∈ staged, times staged (name a) = 1 :=
  fun _ ha => List.count_eq_one_of_mem hd (List.mem_map_of_mem ha)

theorem commitTable_fresh (htable : t.Indexed) (hs : s.Counted counting) (hd : (s.toList.map name).Nodup)
    (ht : ∀ a ∈ s.toList, t.get? (name a) = none) :
    (commitTable fast t s).1.toList = t.toList ++ s.toList ∧
      (commitTable fast t s).2.2 = ⟨s.toList.length, 0, []⟩ := by
  have hmoved : ∀ a ∈ s.toList, IsMoved t.toList s.toList a := fun a ha =>
    ⟨times_of_nodup hd a ha, htable.get?_eq_none_iff.mp (ht a ha)⟩
  have hall : moved t.toList s.toList = s.toList :=
    List.filter_eq_self.mpr fun a ha => decide_eq_true (hmoved a ha)
  have hnone : s.toList.filter (¬IsMoved t.toList s.toList ·) = [] :=
    List.filter_eq_nil_iff.mpr fun a ha => by simpa using hmoved a ha
  have hclean : findings t.toList s.toList = [] := by
    rw [findings, firsts_of_nodup hd]
    exact List.filterMap_eq_nil_iff.mpr fun a ha => finding?_moved (hmoved a ha)
  obtain ⟨hlist, hreport⟩ := commitTable_eq fast htable hs
  rw [hlist, hreport, hall, hnone, hclean]
  exact ⟨rfl, rfl⟩

theorem commitTable_held (htable : t.Indexed) (hs : s.Counted counting) (hd : (s.toList.map name).Nodup)
    (ht : ∀ a ∈ s.toList, ∃ b, t.get? (name a) = some b) :
    (commitTable fast t s).1.toList = t.toList ∧
      (commitTable fast t s).2.2 = ⟨0, s.toList.length, (s.toList.filter t.rejects).map clash⟩ := by
  have hmoved : ∀ a ∈ s.toList, ¬IsMoved t.toList s.toList a := by
    intro a ha hmoved
    obtain ⟨b, hb⟩ := ht a ha
    cases hb.symm.trans (htable.get?_eq_none_iff.mpr hmoved.2)
  have hnone : moved t.toList s.toList = [] :=
    List.filter_eq_nil_iff.mpr fun a ha => by simpa using hmoved a ha
  have hall : s.toList.filter (¬IsMoved t.toList s.toList ·) = s.toList :=
    List.filter_eq_self.mpr fun a ha => decide_eq_true (hmoved a ha)
  have hfindings : findings t.toList s.toList = (s.toList.filter t.rejects).map clash := by
    rw [findings, firsts_of_nodup hd, ← List.filterMap_eq_map, List.filterMap_filter]
    refine List.filterMap_congr fun a ha => ?_
    obtain ⟨b, hb⟩ := ht a ha
    have honce : ¬1 < times s.toList (name a) := Nat.not_lt.mpr (Nat.le_of_eq (times_of_nodup hd a ha))
    rw [finding?_held honce hb fun _ => htable.get?_eq_some_iff, Table.rejects, hb, Option.any_some]
    cases hsame : sameContent b a <;> simp
  obtain ⟨hlist, hreport⟩ := commitTable_eq fast htable hs
  rw [hlist, hreport, hall, hnone, hfindings]
  exact ⟨List.append_nil _, rfl⟩

end

theorem pending_eq_zero {s : Store} (h : s.pending = 0) : s.stagedTypedefs.toList = [] ∧
    s.stagedDefinitions.toList = [] ∧ s.stagedConstants.toList = [] ∧ s.stagedProcedures.toList = [] := by
  simp only [pending, ← Staging.length_toList, Nat.add_eq_zero_iff, List.length_eq_zero_iff] at h
  exact ⟨h.1.1.1, h.1.1.2, h.1.2, h.2⟩

theorem commit_tables (s : Store) :
    s.commit.1.typedefs.toList = (commitTable s.fastLoad s.typedefs s.stagedTypedefs).1.toList ∧
      s.commit.1.definitions.toList = (commitTable s.fastLoad s.definitions s.stagedDefinitions).1.toList ∧
      s.commit.1.constants.toList = (commitTable s.fastLoad s.constants s.stagedConstants).1.toList ∧
      s.commit.1.procedures.toList = (commitTable s.fastLoad s.procedures s.stagedProcedures).1.toList ∧
      s.commit.2 = (((commitTable s.fastLoad s.typedefs s.stagedTypedefs).2.2.append
        (commitTable s.fastLoad s.definitions s.stagedDefinitions).2.2).append
        (commitTable s.fastLoad s.constants s.stagedConstants).2.2).append
        (commitTable s.fastLoad s.procedures s.stagedProcedures).2.2 := by
  have hidle : ∀ {α : Type} [Declaration α] (t : Table α) {st : Staging α}, st.toList = [] →
      (commitTable s.fastLoad t st).1.toList = t.toList ∧ (commitTable s.fastLoad t st).2.2 = .empty := by
    intro α _ t st hst
    unfold commitTable
    rw [hst]
    exact ⟨by cases s.fastLoad <;> rfl, rfl⟩
  by_cases hpending : s.pending = 0
  · have hcommit : s.commit = (s, .empty) := if_pos hpending
    obtain ⟨ht, hd, hc, hp⟩ := pending_eq_zero hpending
    rw [hcommit, (hidle _ ht).1, (hidle _ hd).1, (hidle _ hc).1, (hidle _ hp).1, (hidle _ ht).2, (hidle _ hd).2,
      (hidle _ hc).2, (hidle _ hp).2]
    exact ⟨rfl, rfl, rfl, rfl, rfl⟩
  · rw [commit, if_neg hpending]
    exact ⟨rfl, rfl, rfl, rfl, rfl⟩

theorem pending_commit (s : Store) : s.commit.1.pending = 0 := by
  unfold commit
  split
  · next h => exact h
  · rfl

end Store

namespace DeclarationSet

structure Distinct (d : DeclarationSet) : Prop where
  typedefs : (d.typedefs.map name).Nodup
  definitions : (d.definitions.map name).Nodup
  constants : (d.constants.map name).Nodup
  procedures : (d.procedures.map name).Nodup

structure IsNewTo (d : DeclarationSet) (s : Store) : Prop where
  typedefs : ∀ a ∈ d.typedefs, s.typedefs.get? (name a) = none
  definitions : ∀ a ∈ d.definitions, s.definitions.get? (name a) = none
  constants : ∀ a ∈ d.constants, s.constants.get? (name a) = none
  procedures : ∀ a ∈ d.procedures, s.procedures.get? (name a) = none

structure IsHeldBy (d : DeclarationSet) (s : Store) : Prop where
  typedefs : ∀ a ∈ d.typedefs, ∃ b, s.typedefs.get? (name a) = some b
  definitions : ∀ a ∈ d.definitions, ∃ b, s.definitions.get? (name a) = some b
  constants : ∀ a ∈ d.constants, ∃ b, s.constants.get? (name a) = some b
  procedures : ∀ a ∈ d.procedures, ∃ b, s.procedures.get? (name a) = some b

theorem stage_eq (d : DeclarationSet) (s : Store) : d.stage s =
    { s with
      stagedTypedefs := d.typedefs.foldl (Staging.push (!s.fastLoad)) s.stagedTypedefs
      stagedDefinitions := d.definitions.foldl (Staging.push (!s.fastLoad)) s.stagedDefinitions
      stagedConstants := d.constants.foldl (Staging.push (!s.fastLoad)) s.stagedConstants
      stagedProcedures := d.procedures.foldl (Staging.push (!s.fastLoad)) s.stagedProcedures } := by
  have htypedefs (s : Store) : d.typedefs.foldl Store.addTypedef s =
      { s with stagedTypedefs := d.typedefs.foldl (Staging.push (!s.fastLoad)) s.stagedTypedefs } :=
    List.foldl_hom (fun st => { s with stagedTypedefs := st }) fun _ _ => rfl
  have hdefinitions (s : Store) : d.definitions.foldl Store.addDefinition s =
      { s with stagedDefinitions := d.definitions.foldl (Staging.push (!s.fastLoad)) s.stagedDefinitions } :=
    List.foldl_hom (fun st => { s with stagedDefinitions := st }) fun _ _ => rfl
  have hconstants (s : Store) : d.constants.foldl Store.addConstant s =
      { s with stagedConstants := d.constants.foldl (Staging.push (!s.fastLoad)) s.stagedConstants } :=
    List.foldl_hom (fun st => { s with stagedConstants := st }) fun _ _ => rfl
  have hprocedures (s : Store) : d.procedures.foldl Store.addProcedure s =
      { s with stagedProcedures := d.procedures.foldl (Staging.push (!s.fastLoad)) s.stagedProcedures } :=
    List.foldl_hom (fun st => { s with stagedProcedures := st }) fun _ _ => rfl
  rw [stage, htypedefs, hdefinitions, hconstants, hprocedures]

end DeclarationSet

namespace Store

variable {s : Store} {d : DeclarationSet}

theorem sound_stage (hs : s.Sound) (d : DeclarationSet) : (d.stage s).Sound := by
  rw [d.stage_eq]
  exact ⟨⟨hs.typedefs, hs.definitions, hs.constants, hs.procedures⟩, hs.stagedTypedefs.foldl_push _,
    hs.stagedDefinitions.foldl_push _, hs.stagedConstants.foldl_push _, hs.stagedProcedures.foldl_push _⟩

theorem staged_stage (hidle : s.pending = 0) (d : DeclarationSet) :
    (d.stage s).stagedTypedefs.toList = d.typedefs ∧ (d.stage s).stagedDefinitions.toList = d.definitions ∧
      (d.stage s).stagedConstants.toList = d.constants ∧ (d.stage s).stagedProcedures.toList = d.procedures := by
  obtain ⟨ht, hd, hc, hp⟩ := pending_eq_zero hidle
  rw [d.stage_eq]
  simp [Staging.toList_foldl_push, ht, hd, hc, hp]

theorem tables_stage (s : Store) (d : DeclarationSet) :
    (d.stage s).fastLoad = s.fastLoad ∧ (d.stage s).typedefs = s.typedefs ∧
      (d.stage s).definitions = s.definitions ∧ (d.stage s).constants = s.constants ∧
      (d.stage s).procedures = s.procedures := by
  rw [d.stage_eq]
  exact ⟨rfl, rfl, rfl, rfl, rfl⟩

theorem commit_stage_fresh (hs : s.Sound) (hidle : s.pending = 0) (hd : d.Distinct) (hnew : d.IsNewTo s) :
    (d.stage s).commit.1.typedefs.toList = s.typedefs.toList ++ d.typedefs ∧
      (d.stage s).commit.1.definitions.toList = s.definitions.toList ++ d.definitions ∧
      (d.stage s).commit.1.constants.toList = s.constants.toList ++ d.constants ∧
      (d.stage s).commit.1.procedures.toList = s.procedures.toList ++ d.procedures ∧
      (d.stage s).commit.2 = ⟨d.size, 0, []⟩ := by
  have hsound := sound_stage hs d
  obtain ⟨hst, hsd, hsc, hsp⟩ := staged_stage hidle d
  obtain ⟨-, ht, hdef, hc, hp⟩ := tables_stage s d
  have htypedefs := commitTable_fresh (d.stage s).fastLoad hs.typedefs hsound.stagedTypedefs
    (hst ▸ hd.typedefs) (hst ▸ hnew.typedefs)
  have hdefinitions := commitTable_fresh (d.stage s).fastLoad hs.definitions hsound.stagedDefinitions
    (hsd ▸ hd.definitions) (hsd ▸ hnew.definitions)
  have hconstants := commitTable_fresh (d.stage s).fastLoad hs.constants hsound.stagedConstants
    (hsc ▸ hd.constants) (hsc ▸ hnew.constants)
  have hprocedures := commitTable_fresh (d.stage s).fastLoad hs.procedures hsound.stagedProcedures
    (hsp ▸ hd.procedures) (hsp ▸ hnew.procedures)
  obtain ⟨hct, hcd, hcc, hcp, hreport⟩ := commit_tables (d.stage s)
  rw [hct, hcd, hcc, hcp, hreport, ht, hdef, hc, hp, htypedefs.1, hdefinitions.1, hconstants.1, hprocedures.1,
    htypedefs.2, hdefinitions.2, hconstants.2, hprocedures.2, hst, hsd, hsc, hsp]
  exact ⟨rfl, rfl, rfl, rfl, rfl⟩

def conflicts (s : Store) (d : DeclarationSet) : Diagnostics :=
  (d.typedefs.filter s.typedefs.rejects).map clash ++
    (d.definitions.filter s.definitions.rejects).map clash ++
    (d.constants.filter s.constants.rejects).map clash ++
    (d.procedures.filter s.procedures.rejects).map clash

theorem commit_stage_held (hs : s.Sound) (hidle : s.pending = 0) (hd : d.Distinct) (hheld : d.IsHeldBy s) :
    (d.stage s).commit.1.SameEntries s ∧ (d.stage s).commit.2 = ⟨0, d.size, s.conflicts d⟩ := by
  have hsound := sound_stage hs d
  obtain ⟨hst, hsd, hsc, hsp⟩ := staged_stage hidle d
  obtain ⟨-, ht, hdef, hc, hp⟩ := tables_stage s d
  have htypedefs := commitTable_held (d.stage s).fastLoad hs.typedefs hsound.stagedTypedefs
    (hst ▸ hd.typedefs) (hst ▸ hheld.typedefs)
  have hdefinitions := commitTable_held (d.stage s).fastLoad hs.definitions hsound.stagedDefinitions
    (hsd ▸ hd.definitions) (hsd ▸ hheld.definitions)
  have hconstants := commitTable_held (d.stage s).fastLoad hs.constants hsound.stagedConstants
    (hsc ▸ hd.constants) (hsc ▸ hheld.constants)
  have hprocedures := commitTable_held (d.stage s).fastLoad hs.procedures hsound.stagedProcedures
    (hsp ▸ hd.procedures) (hsp ▸ hheld.procedures)
  obtain ⟨hct, hcd, hcc, hcp, hreport⟩ := commit_tables (d.stage s)
  obtain ⟨hnt, hnd, hnc, hnp⟩ := pending_eq_zero hidle
  obtain ⟨hnt', hnd', hnc', hnp'⟩ := pending_eq_zero (pending_commit (d.stage s))
  refine ⟨⟨?_, ?_, ?_, ?_, hnt'.trans hnt.symm, hnd'.trans hnd.symm, hnc'.trans hnc.symm, hnp'.trans hnp.symm⟩, ?_⟩
  · rw [hct, ht, htypedefs.1]
  · rw [hcd, hdef, hdefinitions.1]
  · rw [hcc, hc, hconstants.1]
  · rw [hcp, hp, hprocedures.1]
  · rw [hreport, ht, hdef, hc, hp, htypedefs.2, hdefinitions.2, hconstants.2, hprocedures.2, hst, hsd, hsc, hsp]
    rfl

end Store

end HeaderBinding
