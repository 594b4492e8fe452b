import HeaderBinding.Proofs.Resolve.Linking
import HeaderBinding.Proofs.Store.Named
import HeaderBinding.Proofs.Store.Staged

namespace HeaderBinding

open Declaration (name category)

namespace Table

variable {α : Type} [Declaration α]

theorem Indexed.subjects_without {t : Table α} (h : t.Indexed) (k : Key) :
    (t.without k).toList.map Store.subject = (t.toList.map Store.subject).filter (·.1 != k) := by
  rw [h.toList_without, List.filter_map]
  rfl

theorem Indexed.get?_isSome_iff {t : Table α} (h : t.Indexed) (k : Key) :
    k.category = category α ∧ (t.get? k.name).isSome = true ↔ ∃ x ∈ t.toList.map Store.subject, x.1 = k := by
  constructor
  · rintro ⟨hcategory, hget⟩
    obtain ⟨a, ha⟩ := Option.isSome_iff_exists.mp hget
    obtain ⟨hmem, hname⟩ := mem_of_get?_eq_some ha
    refine ⟨Store.subject a, List.mem_map_of_mem hmem, ?_⟩
    change (⟨category α, name a⟩ : Key) = k
    rw [hname, ← hcategory]
  · rintro ⟨x, hx, rfl⟩
    obtain ⟨a, ha, rfl⟩ := List.mem_map.mp hx
    exact ⟨rfl, Option.isSome_iff_exists.mpr ⟨a, h.get?_eq_some_iff.mpr ⟨ha, rfl⟩⟩⟩

end Table

namespace Store

section

variable {α : Type} [Declaration α]

theorem subset_commitEntries {fast : Bool} {counts : Std.HashMap String Nat} {entries : List α} {reported : List String}
    {t : Table α} {report : CommitReport} :
    t.toList ⊆ (commitEntries fast counts reported t report entries).1.toList := by
  induction entries generalizing reported t report with
  | nil => exact List.Subset.refl _
  | cons b rest ih =>
    unfold commitEntries
    dsimp only
    split
    · split
      · exact ih
      · exact ih
    · split
      · exact ih
      · have hadded : (if fast then t.push b else t.insert b).toList = t.toList ++ [b] := by
          cases fast <;> simp
        refine List.Subset.trans ?_ ih
        rw [hadded]
        exact List.subset_append_left ..

theorem subset_commitTable (fast : Bool) (t : Table α) (s : Staging α) :
    t.toList ⊆ (commitTable fast t s).1.toList := by
  have hentries : t.toList ⊆ (commitEntries fast s.tally [] t .empty s.toList).1.toList := subset_commitEntries
  cases fast <;> exact hentries

end

end Store

def Entry.subject : Entry → Key × List Reference
  | .synonym d => Store.subject d
  | .definition d => Store.subject d
  | .constant d => Store.subject d
  | .procedure d => Store.subject d

def Entry.IsUnlinked (e : Entry) : Prop :=
  ∀ r ∈ e.subject.2, r.target = none

namespace Store

def stagedSubjects (s : Store) : List (Key × List Reference) :=
  s.stagedTypedefs.toList.map subject ++
    (s.stagedDefinitions.toList.map subject ++ s.stagedProcedures.toList.map subject)

structure Edits (s : Store) (op : Operation) (t : Store) : Prop where
  brings : ∀ x ∈ t.subjects ++ t.stagedSubjects,
    x ∈ s.subjects ++ s.stagedSubjects ∨ ∃ e, op = .add e ∧ x = e.subject
  keeps : ∀ x ∈ s.subjects, x ∈ t.subjects ∨ op = .remove x.1

variable {s t : Store} {k : Key}

theorem edits_of_eq {op : Operation} (hsubjects : t.subjects = s.subjects)
    (hstaged : t.stagedSubjects = s.stagedSubjects) : s.Edits op t :=
  ⟨fun _ hx => .inl (by rwa [hsubjects, hstaged] at hx), fun _ hx => .inl (by rwa [hsubjects])⟩

theorem mem_stagedSubjects_add {s : Store} {e : Entry} {x : Key × List Reference} (hx : x ∈ (s.add e).stagedSubjects) :
    x ∈ s.stagedSubjects ∨ x = e.subject := by
  cases e with
  | constant d => exact .inl hx
  | _ d =>
    simp only [add, addTypedef, addDefinition, addProcedure, stagedSubjects, Staging.toList_push, List.map_append,
      List.map_singleton, List.mem_append, List.mem_singleton, Entry.subject] at hx ⊢
    tauto

theorem subjects_add (s : Store) (e : Entry) : (s.add e).subjects = s.subjects := by
  cases e <;> rfl

theorem edits_add (s : Store) (e : Entry) : s.Edits (.add e) (s.add e) := by
  refine ⟨fun x hx => ?_, fun x hx => .inl (by rwa [subjects_add])⟩
  rw [subjects_add, List.mem_append] at hx
  rcases hx with hx | hx
  · exact .inl (List.mem_append_left _ hx)
  · exact (mem_stagedSubjects_add hx).imp (List.mem_append_right _) fun heq => ⟨e, rfl, heq⟩

theorem edits_commit (s : Store) : s.Edits .commit s.commit.1 := by
  obtain ⟨htypedefs, hdefinitions, -, hprocedures, -⟩ := s.commit_tables
  have hsubjects : s.commit.1.subjects =
      (commitTable s.fastLoad s.typedefs s.stagedTypedefs).1.toList.map subject ++
        ((commitTable s.fastLoad s.definitions s.stagedDefinitions).1.toList.map subject ++
          (commitTable s.fastLoad s.procedures s.stagedProcedures).1.toList.map subject) := by
    rw [subjects, htypedefs, hdefinitions, hprocedures]
  have hnone : s.commit.1.stagedSubjects = [] := by
    obtain ⟨htypedefs, hdefinitions, -, hprocedures⟩ := pending_eq_zero s.pending_commit
    rw [stagedSubjects, htypedefs, hdefinitions, hprocedures]
    rfl
  have hmoved : ∀ {α : Type} [Declaration α] {u : Table α} {st : Staging α} {x : Key × List Reference},
      x ∈ (commitTable s.fastLoad u st).1.toList.map subject →
        x ∈ u.toList.map subject ∨ x ∈ st.toList.map subject := by
    intro α _ u st x hx
    rw [← List.mem_append, ← List.map_append]
    exact List.map_subset subject (fun a ha => mem_commitTable ha) hx
  have hkept : ∀ {α : Type} [Declaration α] (u : Table α) (st : Staging α),
      u.toList.map subject ⊆ (commitTable s.fastLoad u st).1.toList.map subject :=
    fun u st => List.map_subset subject (subset_commitTable s.fastLoad u st)
  constructor
  · intro x hx
    rw [hnone, List.append_nil, hsubjects, List.mem_append, List.mem_append] at hx
    refine .inl ?_
    simp only [subjects, stagedSubjects, List.mem_append]
    rcases hx with hx | hx | hx
    · exact (hmoved hx).imp .inl .inl
    · exact (hmoved hx).imp (.inr ∘ .inl) (.inr ∘ .inl)
    · exact (hmoved hx).imp (.inr ∘ .inr) (.inr ∘ .inr)
  · intro x hx
    rw [hsubjects]
    refine .inl ?_
    simp only [subjects, List.mem_append] at hx ⊢
    exact hx.imp (hkept _ _ ·) (.imp (hkept _ _ ·) (hkept _ _ ·))

theorem subjects_remove (hs : s.Indexed) (k : Key) : (s.remove k).2.subjects = s.subjects.filter (·.1 != k) := by
  rw [remove_eq]
  simp only [subjects, List.filter_append, hs.typedefs.subjects_without, hs.definitions.subjects_without,
    hs.procedures.subjects_without]

theorem edits_remove (hs : s.Indexed) (k : Key) : s.Edits (.remove k) (s.remove k).2 := by
  have hsubjects := subjects_remove hs k
  have hstaged : (s.remove k).2.stagedSubjects = s.stagedSubjects := by
    rw [remove_eq]
    rfl
  constructor
  · intro x hx
    rw [hsubjects, hstaged] at hx
    exact .inl (List.append_subset.mpr ⟨fun _ hx => List.mem_append_left _ (List.mem_of_mem_filter hx),
      List.subset_append_right ..⟩ hx)
  · intro x hx
    rw [hsubjects, List.mem_filter, bne_iff_ne]
    by_cases hk : x.1 = k
    · exact .inr (congrArg Operation.remove hk.symm)
    · exact .inl ⟨hx, hk⟩

theorem edits_perform (hs : s.Indexed) (op : Operation) : s.Edits op (s.perform op).1 := by
  cases op with
  | add e => exact s.edits_add e
  | commit => exact s.edits_commit
  | remove k => exact edits_remove hs k
  | setFastLoad on =>
    refine edits_of_eq ?_ ?_ <;> unfold perform setFastLoad <;> dsimp only <;> split <;> rfl
  | _ => exact edits_of_eq rfl rfl

theorem node?_isSome_iff (hs : s.Indexed) :
    (s.node? k).isSome = true ↔ k.category ≠ .procedure ∧ ∃ x ∈ s.subjects, x.1 = k := by
  simp only [subjects, List.mem_append, or_and_right, exists_or, ← hs.typedefs.get?_isSome_iff,
    ← hs.definitions.get?_isSome_iff, ← hs.procedures.get?_isSome_iff]
  obtain ⟨category, n⟩ := k
  cases category <;> simp [node?, Declaration.category]

theorem node?_of_byName? {n : String} {node : Node} (h : s.byName? n = some node) :
    s.node? node.key = some node := by
  unfold byName? at h
  split at h
  · next d hd =>
    cases h
    have hname : d.name = n := (Table.mem_of_get?_eq_some hd).2
    simp [node?, Node.key, Key.definedType, hname, hd]
  · obtain ⟨d, hd, rfl⟩ := Option.map_eq_some_iff.mp h
    have hname : d.name = n := (Table.mem_of_get?_eq_some hd).2
    simp [node?, Node.key, Key.synonym, hname, hd]

theorem node?_of_targetOf? {n : String} (h : s.targetOf? n = some (.declaration k)) : (s.node? k).isSome = true := by
  unfold targetOf? at h
  split at h
  · next node hnode =>
    cases h
    rw [node?_of_byName? hnode]
    rfl
  · obtain ⟨b, -, hb⟩ := Option.map_eq_some_iff.mp h
    cases hb

end Store

end HeaderBinding
