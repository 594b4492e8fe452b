import HeaderBinding.Proofs.Store.Commit
import HeaderBinding.Store.Operation

namespace HeaderBinding.Store

structure Indexed (s : Store) : Prop where
  typedefs : s.typedefs.Indexed
  definitions : s.definitions.Indexed
  constants : s.constants.Indexed
  procedures : s.procedures.Indexed

structure Sound (s : Store) : Prop extends s.Indexed where
  stagedTypedefs : s.stagedTypedefs.Counted (!s.fastLoad)
  stagedDefinitions : s.stagedDefinitions.Counted (!s.fastLoad)
  stagedConstants : s.stagedConstants.Counted (!s.fastLoad)
  stagedProcedures : s.stagedProcedures.Counted (!s.fastLoad)

structure SameEntries (s t : Store) : Prop where
  typedefs : s.typedefs.toList = t.typedefs.toList
  definitions : s.definitions.toList = t.definitions.toList
  constants : s.constants.toList = t.constants.toList
  procedures : s.procedures.toList = t.procedures.toList
  stagedTypedefs : s.stagedTypedefs.toList = t.stagedTypedefs.toList
  stagedDefinitions : s.stagedDefinitions.toList = t.stagedDefinitions.toList
  stagedConstants : s.stagedConstants.toList = t.stagedConstants.toList
  stagedProcedures : s.stagedProcedures.toList = t.stagedProcedures.toList

theorem SameEntries.refl (s : Store) : s.SameEntries s :=
  ⟨rfl, rfl, rfl, rfl, rfl, rfl, rfl, rfl⟩

theorem sound_empty : Store.empty.Sound :=
  ⟨⟨Table.indexed_empty, Table.indexed_empty, Table.indexed_empty, Table.indexed_empty⟩,
    Staging.counted_empty, Staging.counted_empty, Staging.counted_empty, Staging.counted_empty⟩

variable {s t : Store}

section

variable {α : Type} [Declaration α] {u v : Table α}

theorem get?_congr (hu : u.Indexed) (hv : v.Indexed) (h : u.toList = v.toList) (n : String) :
    u.get? n = v.get? n :=
  hu.get?_perm hv (.of_eq h) n

theorem contains_congr (hu : u.Indexed) (hv : v.Indexed) (h : u.toList = v.toList) (n : String) :
    u.contains n = v.contains n := by
  rw [hu.contains_eq, hv.contains_eq, get?_congr hu hv h]

end

theorem sound_add (h : s.Sound) (e : Entry) : (s.add e).Sound := by
  cases e with
  | synonym d => exact { h with stagedTypedefs := h.stagedTypedefs.push d }
  | definition d => exact { h with stagedDefinitions := h.stagedDefinitions.push d }
  | constant d => exact { h with stagedConstants := h.stagedConstants.push d }
  | procedure d => exact { h with stagedProcedures := h.stagedProcedures.push d }

theorem sameEntries_add (h : s.SameEntries t) (e : Entry) : (s.add e).SameEntries (t.add e) := by
  cases e with
  | synonym d =>
    exact { h with stagedTypedefs := by simp [add, addTypedef, h.stagedTypedefs] }
  | definition d =>
    exact { h with stagedDefinitions := by simp [add, addDefinition, h.stagedDefinitions] }
  | constant d =>
    exact { h with stagedConstants := by simp [add, addConstant, h.stagedConstants] }
  | procedure d =>
    exact { h with stagedProcedures := by simp [add, addProcedure, h.stagedProcedures] }

theorem sound_setFastLoad (h : s.Sound) (on : Bool) : (s.setFastLoad on).Sound := by
  unfold setFastLoad
  split
  · exact h
  · exact ⟨⟨h.typedefs, h.definitions, h.constants, h.procedures⟩, h.stagedTypedefs.setIndexed _,
      h.stagedDefinitions.setIndexed _, h.stagedConstants.setIndexed _,
      h.stagedProcedures.setIndexed _⟩

theorem tables_setFastLoad (s : Store) (on : Bool) :
    (s.setFastLoad on).typedefs = s.typedefs ∧ (s.setFastLoad on).definitions = s.definitions ∧
      (s.setFastLoad on).constants = s.constants ∧ (s.setFastLoad on).procedures = s.procedures := by
  unfold setFastLoad
  split <;> exact ⟨rfl, rfl, rfl, rfl⟩

theorem sameEntries_setFastLoad (h : s.SameEntries t) (on : Bool) :
    (s.setFastLoad on).SameEntries t := by
  unfold setFastLoad
  split
  · exact h
  · exact ⟨h.typedefs, h.definitions, h.constants, h.procedures, h.stagedTypedefs,
      h.stagedDefinitions, h.stagedConstants, h.stagedProcedures⟩

theorem SameEntries.pending_eq (h : s.SameEntries t) : s.pending = t.pending := by
  simp only [pending, ← Staging.length_toList, h.stagedTypedefs, h.stagedDefinitions,
    h.stagedConstants, h.stagedProcedures]

theorem sound_commit (h : s.Sound) : s.commit.1.Sound := by
  unfold commit
  split
  · exact h
  · exact ⟨⟨indexed_commitTable h.typedefs h.stagedTypedefs,
      indexed_commitTable h.definitions h.stagedDefinitions,
      indexed_commitTable h.constants h.stagedConstants,
      indexed_commitTable h.procedures h.stagedProcedures⟩,
      h.stagedTypedefs.clear, h.stagedDefinitions.clear, h.stagedConstants.clear,
      h.stagedProcedures.clear⟩

theorem commit_congr (hs : s.Sound) (ht : t.Sound) (h : s.SameEntries t) :
    s.commit.1.SameEntries t.commit.1 ∧ s.commit.2 = t.commit.2 := by
  unfold commit
  rw [h.pending_eq]
  split
  · exact ⟨h, rfl⟩
  · have htypedefs := commitTable_congr hs.typedefs ht.typedefs hs.stagedTypedefs ht.stagedTypedefs
      h.typedefs h.stagedTypedefs
    have hdefinitions := commitTable_congr hs.definitions ht.definitions hs.stagedDefinitions
      ht.stagedDefinitions h.definitions h.stagedDefinitions
    have hconstants := commitTable_congr hs.constants ht.constants hs.stagedConstants
      ht.stagedConstants h.constants h.stagedConstants
    have hprocedures := commitTable_congr hs.procedures ht.procedures hs.stagedProcedures
      ht.stagedProcedures h.procedures h.stagedProcedures
    refine ⟨⟨htypedefs.1, hdefinitions.1, hconstants.1, hprocedures.1, rfl, rfl, rfl, rfl⟩, ?_⟩
    change CommitReport.append (.append (.append _ _) _) _ =
      CommitReport.append (.append (.append _ _) _) _
    rw [htypedefs.2, hdefinitions.2, hconstants.2, hprocedures.2]

theorem find?_congr (hs : s.Sound) (ht : t.Sound) (h : s.SameEntries t) (k : Key) :
    s.find? k = t.find? k := by
  obtain ⟨category, n⟩ := k
  cases category with
  | synonym => simp only [find?, get?_congr hs.typedefs ht.typedefs h.typedefs]
  | definedType => simp only [find?, get?_congr hs.definitions ht.definitions h.definitions]
  | constant => simp only [find?, get?_congr hs.constants ht.constants h.constants]
  | procedure => simp only [find?, get?_congr hs.procedures ht.procedures h.procedures]

theorem remove_eq (s : Store) (k : Key) :
    (s.remove k).2 = { s with
      typedefs := s.typedefs.without k
      definitions := s.definitions.without k
      constants := s.constants.without k
      procedures := s.procedures.without k } := by
  obtain ⟨category, n⟩ := k
  cases category with
  | synonym =>
    unfold remove removeTypedef
    dsimp only
    cases h : s.typedefs.erase? n <;> simp [Table.without, Declaration.category, h]
  | definedType =>
    unfold remove removeDefinition
    dsimp only
    cases h : s.definitions.erase? n <;> simp [Table.without, Declaration.category, h]
  | constant =>
    unfold remove removeConstant
    dsimp only
    cases h : s.constants.erase? n <;> simp [Table.without, Declaration.category, h]
  | procedure =>
    unfold remove removeProcedure
    dsimp only
    cases h : s.procedures.erase? n <;> simp [Table.without, Declaration.category, h]

theorem fst_remove (h : s.Indexed) (k : Key) : (s.remove k).1 = s.find? k := by
  obtain ⟨category, n⟩ := k
  cases category with
  | synonym =>
    unfold remove removeTypedef find?
    dsimp only
    rw [← h.typedefs.fst_erase?]
    cases s.typedefs.erase? n <;> rfl
  | definedType =>
    unfold remove removeDefinition find?
    dsimp only
    rw [← h.definitions.fst_erase?]
    cases s.definitions.erase? n <;> rfl
  | constant =>
    unfold remove removeConstant find?
    dsimp only
    rw [← h.constants.fst_erase?]
    cases s.constants.erase? n <;> rfl
  | procedure =>
    unfold remove removeProcedure find?
    dsimp only
    rw [← h.procedures.fst_erase?]
    cases s.procedures.erase? n <;> rfl

theorem sound_remove (h : s.Sound) (k : Key) : (s.remove k).2.Sound := by
  rw [remove_eq]
  exact ⟨⟨h.typedefs.without k, h.definitions.without k, h.constants.without k, h.procedures.without k⟩,
    h.stagedTypedefs, h.stagedDefinitions, h.stagedConstants, h.stagedProcedures⟩

theorem remove_congr (hs : s.Sound) (ht : t.Sound) (h : s.SameEntries t) (k : Key) :
    (s.remove k).1 = (t.remove k).1 ∧ (s.remove k).2.SameEntries (t.remove k).2 := by
  rw [fst_remove hs.toIndexed, fst_remove ht.toIndexed, remove_eq, remove_eq]
  have hlist : ∀ {α : Type} [Declaration α] {u v : Table α}, u.Indexed → v.Indexed → u.toList = v.toList →
      (u.without k).toList = (v.without k).toList := by
    intro α _ u v hu hv hlist
    rw [hu.toList_without, hv.toList_without, hlist]
  exact ⟨find?_congr hs ht h k, hlist hs.typedefs ht.typedefs h.typedefs,
    hlist hs.definitions ht.definitions h.definitions, hlist hs.constants ht.constants h.constants,
    hlist hs.procedures ht.procedures h.procedures, h.stagedTypedefs, h.stagedDefinitions, h.stagedConstants,
    h.stagedProcedures⟩

theorem byName?_congr (hs : s.Sound) (ht : t.Sound) (h : s.SameEntries t) (name : String) :
    s.byName? name = t.byName? name := by
  simp only [byName?, get?_congr hs.definitions ht.definitions h.definitions,
    get?_congr hs.typedefs ht.typedefs h.typedefs]

theorem holds_congr (hs : s.Sound) (ht : t.Sound) (h : s.SameEntries t) (k : Key) :
    s.contains k = t.contains k := by
  obtain ⟨category, n⟩ := k
  cases category with
  | synonym => simp only [contains, contains_congr hs.typedefs ht.typedefs h.typedefs]
  | definedType => simp only [contains, contains_congr hs.definitions ht.definitions h.definitions]
  | constant => simp only [contains, contains_congr hs.constants ht.constants h.constants]
  | procedure => simp only [contains, contains_congr hs.procedures ht.procedures h.procedures]

theorem sound_perform (h : s.Sound) (op : Operation) : (s.perform op).1.Sound := by
  cases op with
  | add e => exact sound_add h e
  | commit => exact sound_commit h
  | remove k => exact sound_remove h k
  | setFastLoad on => exact sound_setFastLoad h on
  | _ => exact h

theorem perform_congr (hs : s.Sound) (ht : t.Sound) (h : s.SameEntries t) {op : Operation}
    (hop : op.changesMode = false) :
    (s.perform op).2 = (t.perform op).2 ∧ (s.perform op).1.SameEntries (t.perform op).1 := by
  cases op with
  | add e => exact ⟨rfl, sameEntries_add h e⟩
  | commit =>
    obtain ⟨hentries, hreport⟩ := commit_congr hs ht h
    exact ⟨by simp only [perform, hreport], hentries⟩
  | remove k =>
    obtain ⟨hanswer, hentries⟩ := remove_congr hs ht h k
    exact ⟨by simp only [perform, hanswer], hentries⟩
  | find k => exact ⟨by simp only [perform, find?_congr hs ht h], h⟩
  | findByName name => exact ⟨by simp only [perform, byName?_congr hs ht h], h⟩
  | contains k => exact ⟨by simp only [perform, holds_congr hs ht h], h⟩
  | missing ks => exact ⟨by simp only [perform, missing, holds_congr hs ht h], h⟩
  | setFastLoad on => cases hop

theorem run_congr (hs : s.Sound) (ht : t.Sound) (h : s.SameEntries t) (ops : List Operation) :
    (s.run ops).2 = (t.run (ops.filter (!·.changesMode))).2 ∧
      (s.run ops).1.SameEntries (t.run (ops.filter (!·.changesMode))).1 := by
  induction ops generalizing s t with
  | nil => exact ⟨rfl, h⟩
  | cons op rest ih =>
    by_cases hop : op.changesMode = true
    · rw [List.filter_cons_of_neg (by simp [hop])]
      cases op with
      | setFastLoad on =>
        obtain ⟨hanswers, hentries⟩ := ih (sound_setFastLoad hs on) ht (sameEntries_setFastLoad h on)
        exact ⟨by simpa only [run, perform, List.nil_append] using hanswers, hentries⟩
      | _ => cases hop
    · have hop' : op.changesMode = false := by simpa using hop
      rw [List.filter_cons_of_pos (by simp [hop'])]
      obtain ⟨hanswer, hentries⟩ := perform_congr hs ht h hop'
      obtain ⟨hanswers, hafter⟩ := ih (sound_perform hs op) (sound_perform ht op) hentries
      exact ⟨by simp only [run, hanswer, hanswers], hafter⟩

theorem sound_run (hs : s.Sound) (ops : List Operation) : (s.run ops).1.Sound := by
  induction ops generalizing s with
  | nil => exact hs
  | cons op rest ih => exact ih (sound_perform hs op)

theorem run_eq_of_modes_left_out (ops : List Operation) :
    (Store.empty.run ops).2 = (Store.empty.run (ops.filter (!·.changesMode))).2 ∧
      (Store.empty.run ops).1.SameEntries (Store.empty.run (ops.filter (!·.changesMode))).1 :=
  run_congr sound_empty sound_empty (.refl _) ops

end HeaderBinding.Store
