import HeaderBinding.Proofs.Resolve.Idempotence
import HeaderBinding.Proofs.Resolve.Valued
import HeaderBinding.Proofs.Store.FastLoad

namespace HeaderBinding

open Declaration (name references)

def Declaration.IsNamed {α : Type} [Declaration α] (a : α) : Prop :=
  name a ≠ "" ∧ ∀ r ∈ references a, r.name ≠ ""

def Entry.IsNamed : Entry → Prop
  | .synonym d => Declaration.IsNamed d
  | .definition d => Declaration.IsNamed d
  | .constant d => Declaration.IsNamed d
  | .procedure d => Declaration.IsNamed d

namespace Table

variable {α : Type} [Declaration α] {t u : Table α}

def names (t : Table α) : List (String × List String) :=
  t.toList.map fun a => (name a, (references a).map (·.name))

theorem names_map {f : α → α} (hname : ∀ a, name (f a) = name a)
    (hreferences : ∀ a, (references (f a)).map (·.name) = (references a).map (·.name)) : (t.map f).names = t.names := by
  simp only [names, toList_map, List.map_map, Function.comp_def, hname, hreferences]

structure WellNamed (t : Table α) : Prop where
  named : ∀ a ∈ t.toList, Declaration.IsNamed a
  nodup : (t.toList.map name).Nodup

theorem WellNamed.of_names (h : u.WellNamed) (hnames : t.names = u.names) : t.WellNamed := by
  constructor
  · intro a ha
    have hmem : (name a, (references a).map (·.name)) ∈ u.names := hnames ▸ List.mem_map_of_mem ha
    obtain ⟨b, hb, heq⟩ := List.mem_map.mp hmem
    obtain ⟨hname, hreferences⟩ := Prod.mk.inj heq
    obtain ⟨hne, hrefs⟩ := h.named b hb
    refine ⟨hname ▸ hne, fun r hr => ?_⟩
    have hmem' : r.name ∈ (references b).map (·.name) := hreferences ▸ List.mem_map_of_mem hr
    obtain ⟨r', hr', heq'⟩ := List.mem_map.mp hmem'
    exact heq' ▸ hrefs r' hr'
  · have hfst := congrArg (List.map Prod.fst) hnames
    simp only [names, List.map_map, Function.comp_def] at hfst
    rw [hfst]
    exact h.nodup

end Table

namespace Store

section

variable {α : Type} [Declaration α]

theorem mem_commitEntries {fast : Bool} {counts : Std.HashMap String Nat} {entries : List α} {reported : List String}
    {t : Table α} {report : CommitReport} {a : α}
    (h : a ∈ (commitEntries fast counts reported t report entries).1.toList) : a ∈ t.toList ++ entries := by
  induction entries generalizing reported t report with
  | nil => simpa [commitEntries] using h
  | cons b rest ih =>
    have hkept : a ∈ t.toList ++ rest → a ∈ t.toList ++ b :: rest := by
      intro ha
      rw [List.mem_append] at ha ⊢
      exact ha.imp_right (List.mem_cons_of_mem b)
    unfold commitEntries at h
    dsimp only at h
    split at h
    · split at h
      · exact hkept (ih h)
      · exact hkept (ih h)
    · split at h
      · exact hkept (ih h)
      · have ha := ih h
        rwa [toList_added, List.append_assoc] at ha

theorem mem_commitTable {fast : Bool} {t : Table α} {s : Staging α} {a : α}
    (h : a ∈ (commitTable fast t s).1.toList) : a ∈ t.toList ++ s.toList := by
  refine mem_commitEntries (?_ : a ∈ (commitEntries fast s.tally [] t .empty s.toList).1.toList)
  cases fast <;> exact h

end

structure AllNamed (s : Store) : Prop where
  typedefs : ∀ d ∈ s.typedefs.toList ++ s.stagedTypedefs.toList, Declaration.IsNamed d
  definitions : ∀ d ∈ s.definitions.toList ++ s.stagedDefinitions.toList, Declaration.IsNamed d
  constants : ∀ d ∈ s.constants.toList ++ s.stagedConstants.toList, Declaration.IsNamed d
  procedures : ∀ d ∈ s.procedures.toList ++ s.stagedProcedures.toList, Declaration.IsNamed d

theorem allNamed_empty : Store.empty.AllNamed :=
  ⟨nofun, nofun, nofun, nofun⟩

variable {s : Store}

theorem AllNamed.add (h : s.AllNamed) {e : Entry} (he : e.IsNamed) : (s.add e).AllNamed := by
  have hpush : ∀ {α : Type} [Declaration α] {t : Table α} {st : Staging α} {a : α} (counting : Bool),
      (∀ b ∈ t.toList ++ st.toList, Declaration.IsNamed b) → Declaration.IsNamed a →
      ∀ b ∈ t.toList ++ (st.push counting a).toList, Declaration.IsNamed b := by
    intro α _ t st a counting hall ha
    rw [Staging.toList_push, ← List.append_assoc, List.forall_mem_append]
    exact ⟨hall, List.forall_mem_singleton.mpr ha⟩
  cases e with
  | synonym d => exact { h with typedefs := hpush _ h.typedefs he }
  | definition d => exact { h with definitions := hpush _ h.definitions he }
  | constant d => exact { h with constants := hpush _ h.constants he }
  | procedure d => exact { h with procedures := hpush _ h.procedures he }

theorem AllNamed.commit (h : s.AllNamed) : s.commit.1.AllNamed := by
  have hmoved : ∀ {α : Type} [Declaration α] {t : Table α} {st : Staging α},
      (∀ b ∈ t.toList ++ st.toList, Declaration.IsNamed b) →
      ∀ b ∈ (commitTable s.fastLoad t st).1.toList ++ st.clear.toList, Declaration.IsNamed b := by
    intro α _ t st hall b hb
    rw [Staging.toList_clear, List.append_nil] at hb
    exact hall b (mem_commitTable hb)
  unfold Store.commit
  split
  · exact h
  · exact ⟨hmoved h.typedefs, hmoved h.definitions, hmoved h.constants, hmoved h.procedures⟩

theorem AllNamed.remove (h : s.AllNamed) (k : Key) : (s.remove k).2.AllNamed := by
  have hleft : ∀ {α : Type} [Declaration α] {t : Table α} {st : Staging α},
      (∀ b ∈ t.toList ++ st.toList, Declaration.IsNamed b) →
      ∀ b ∈ (t.without k).toList ++ st.toList, Declaration.IsNamed b := by
    intro α _ t st hall
    rw [List.forall_mem_append] at hall ⊢
    exact ⟨fun b hb => hall.1 b (Table.mem_of_mem_without hb), hall.2⟩
  rw [remove_eq]
  exact ⟨hleft h.typedefs, hleft h.definitions, hleft h.constants, hleft h.procedures⟩

theorem AllNamed.setFastLoad (h : s.AllNamed) (on : Bool) : (s.setFastLoad on).AllNamed := by
  unfold Store.setFastLoad
  split
  · exact h
  · exact ⟨h.typedefs, h.definitions, h.constants, h.procedures⟩

theorem AllNamed.run (h : s.AllNamed) {ops : List Operation} (hops : ∀ e, Operation.add e ∈ ops → e.IsNamed) :
    (s.run ops).1.AllNamed := by
  induction ops generalizing s with
  | nil => exact h
  | cons op rest ih =>
    refine ih ?_ fun e he => hops e (List.mem_cons_of_mem op he)
    cases op with
    | add e => exact h.add (hops e (List.mem_cons_self ..))
    | commit => exact h.commit
    | remove k => exact h.remove k
    | setFastLoad on => exact h.setFastLoad on
    | find k => exact h
    | findByName name => exact h
    | contains k => exact h
    | missing ks => exact h

structure SameNames (s t : Store) : Prop where
  typedefs : s.typedefs.names = t.typedefs.names
  definitions : s.definitions.names = t.definitions.names
  constants : s.constants.names = t.constants.names
  procedures : s.procedures.names = t.procedures.names

theorem SameNames.trans {s t u : Store} (h : s.SameNames t) (h' : t.SameNames u) : s.SameNames u :=
  ⟨h.typedefs.trans h'.typedefs, h.definitions.trans h'.definitions, h.constants.trans h'.constants,
    h.procedures.trans h'.procedures⟩

theorem sameNames_link (s : Store) : s.link.1.SameNames s := by
  have hname : ∀ r : Reference, (r.linkedBy s.targetOf?).name = r.name := by
    intro r
    unfold Reference.linkedBy
    split
    · rfl
    · cases s.targetOf? r.name <;> rfl
  have hreferences : ∀ {α : Type} [Declaration α] [LawfulDeclaration α] (a : α),
      (references (relink s.targetOf? a)).map (·.name) = (references a).map (·.name) := by
    intro α _ _ a
    have h := congrArg Prod.snd (subject_relink s.targetOf? a)
    simp only [subject] at h
    simp only [h, List.map_map, Function.comp_def, hname]
  rw [link_eq]
  exact ⟨Table.names_map (name_relink _) hreferences, Table.names_map (name_relink _) hreferences, rfl,
    Table.names_map (name_relink _) hreferences⟩

theorem sameNames_assign (f : Values) (s : Store) : (s.assign f).SameNames s := by
  have hof : ∀ {α : Type} [Declaration α] {g : α → α}, (∀ a, subject (g a) = subject a) →
      (∀ a, name (g a) = name a) ∧ ∀ a, (references (g a)).map (·.name) = (references a).map (·.name) := by
    intro α _ g hg
    refine ⟨fun a => congrArg (fun x => x.1.name) (hg a), fun a => ?_⟩
    exact congrArg (fun x => x.2.map (·.name)) (hg a)
  have htypedef := hof (subject_assign_typedef f)
  have hdefinition := hof (subject_assign_definition f)
  have hconstant := @hof Constant _ (Constant.assign f) fun _ => rfl
  exact ⟨Table.names_map htypedef.1 htypedef.2, Table.names_map hdefinition.1 hdefinition.2,
    Table.names_map hconstant.1 hconstant.2, rfl⟩

theorem sameNames_valuate (s : Store) (limit : Option Nat) : (s.valuate limit).1.SameNames s := by
  have hassign := (revalued_valuate hereditary_true (fun _ _ _ _ => trivial) limit : Revalued _ _ _ s _).assign_eq
  have hafter := sameNames_assign noValues (s.valuate limit).1
  have hbefore := sameNames_assign noValues s
  rw [hassign] at hafter
  exact ⟨hafter.typedefs.symm.trans hbefore.typedefs, hafter.definitions.symm.trans hbefore.definitions,
    hafter.constants.symm.trans hbefore.constants, hafter.procedures.symm.trans hbefore.procedures⟩

def resolveAll (runs : List ResolveOptions) (s : Store) : Store :=
  runs.foldl (fun s options => (s.resolve options).1) s

theorem sameNames_resolveAll (runs : List ResolveOptions) (s : Store) : (s.resolveAll runs).SameNames s := by
  induction runs generalizing s with
  | nil => exact ⟨rfl, rfl, rfl, rfl⟩
  | cons options rest ih =>
    have hlink := sameNames_link s
    have hvaluate := sameNames_valuate s.link.1 options.maxPasses
    exact (ih _).trans (hvaluate.trans hlink)

structure WellNamed (s : Store) : Prop where
  typedefs : s.typedefs.WellNamed
  definitions : s.definitions.WellNamed
  constants : s.constants.WellNamed
  procedures : s.procedures.WellNamed

theorem wellNamed_resolveAll {ops : List Operation} (hops : ∀ e, Operation.add e ∈ ops → e.IsNamed)
    (runs : List ResolveOptions) : ((Store.empty.run ops).1.resolveAll runs).WellNamed := by
  have hnamed := allNamed_empty.run hops
  have hsound := sound_run sound_empty ops
  have hnames := sameNames_resolveAll runs (Store.empty.run ops).1
  exact ⟨.of_names ⟨(List.forall_mem_append.mp hnamed.typedefs).1, hsound.typedefs.nodup⟩ hnames.typedefs,
    .of_names ⟨(List.forall_mem_append.mp hnamed.definitions).1, hsound.definitions.nodup⟩ hnames.definitions,
    .of_names ⟨(List.forall_mem_append.mp hnamed.constants).1, hsound.constants.nodup⟩ hnames.constants,
    .of_names ⟨(List.forall_mem_append.mp hnamed.procedures).1, hsound.procedures.nodup⟩ hnames.procedures⟩

end Store

end HeaderBinding
