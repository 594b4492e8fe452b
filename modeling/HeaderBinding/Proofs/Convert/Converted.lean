import HeaderBinding.Convert.Basic
import HeaderBinding.Proofs.Resolve.Restaged
import HeaderBinding.Proofs.Store.Named

namespace HeaderBinding

open Declaration (name references IsNamed)

def Declaration.IsUnlinked {α : Type} [Declaration α] (a : α) : Prop :=
  ∀ r ∈ references a, r.target = none

variable {P : {α : Type} → [Declaration α] → α → Prop}

structure DeclarationSet.All (P : {α : Type} → [Declaration α] → α → Prop) (d : DeclarationSet) : Prop where
  typedefs : ∀ a ∈ d.typedefs, P a
  definitions : ∀ a ∈ d.definitions, P a
  constants : ∀ a ∈ d.constants, P a
  procedures : ∀ a ∈ d.procedures, P a

namespace Store

variable {s t : Store} {d : DeclarationSet}

structure All (P : {α : Type} → [Declaration α] → α → Prop) (s : Store) : Prop where
  typedefs : ∀ a ∈ s.typedefs.toList, P a
  definitions : ∀ a ∈ s.definitions.toList, P a
  constants : ∀ a ∈ s.constants.toList, P a
  procedures : ∀ a ∈ s.procedures.toList, P a

theorem all_empty : Store.empty.All P :=
  ⟨nofun, nofun, nofun, nofun⟩

theorem SameEntries.all (h : s.SameEntries t) (ht : t.All P) : s.All P :=
  ⟨h.typedefs ▸ ht.typedefs, h.definitions ▸ ht.definitions, h.constants ▸ ht.constants, h.procedures ▸ ht.procedures⟩

theorem All.commit_stage (hs : s.All P) (hidle : s.pending = 0) (hd : d.All P) : (d.stage s).commit.1.All P := by
  obtain ⟨hst, hsd, hsc, hsp⟩ := staged_stage hidle d
  obtain ⟨-, ht, hdef, hc, hp⟩ := tables_stage s d
  obtain ⟨hct, hcd, hcc, hcp, -⟩ := commit_tables (d.stage s)
  have hmoved : ∀ {α : Type} [Declaration α] {u : Table α} {st : Staging α} {as : List α}, st.toList = as →
      (∀ a ∈ u.toList, P a) → (∀ a ∈ as, P a) →
      ∀ a ∈ (commitTable (d.stage s).fastLoad u st).1.toList, P a := by
    rintro α _ u st as rfl hu hst a ha
    exact (List.mem_append.mp (mem_commitTable ha)).elim (hu a) (hst a)
  constructor
  · rw [hct, ht]
    exact hmoved hst hs.typedefs hd.typedefs
  · rw [hcd, hdef]
    exact hmoved hsd hs.definitions hd.definitions
  · rw [hcc, hc]
    exact hmoved hsc hs.constants hd.constants
  · rw [hcp, hp]
    exact hmoved hsp hs.procedures hd.procedures

def IsLinked (s : Store) : Prop :=
  ∀ x ∈ s.subjects, ∀ r ∈ x.2, r.target = s.targetOf? r.name

theorem IsLinked.congr (h : s.IsLinked) (hsubjects : t.subjects = s.subjects) (htarget : t.targetOf? = s.targetOf?) :
    t.IsLinked := by
  unfold IsLinked
  rw [hsubjects, htarget]
  exact h

theorem All.subjects (hs : s.All Declaration.IsUnlinked) : ∀ x ∈ s.subjects, ∀ r ∈ x.2, r.target = none := by
  have hof : ∀ {α : Type} [Declaration α] {as : List α}, (∀ a ∈ as, Declaration.IsUnlinked a) →
      ∀ x ∈ as.map subject, ∀ r ∈ x.2, r.target = none := by
    intro α _ as has x hx
    obtain ⟨a, ha, rfl⟩ := List.mem_map.mp hx
    exact has a ha
  rw [Store.subjects, List.forall_mem_append, List.forall_mem_append]
  exact ⟨hof hs.typedefs, hof hs.definitions, hof hs.procedures⟩

theorem isLinked_link (hs : s.All Declaration.IsUnlinked) : s.link.1.IsLinked := by
  intro x hx r hr
  rw [subjects_link] at hx
  obtain ⟨y, hy, rfl⟩ := List.mem_map.mp hx
  obtain ⟨r', hr', rfl⟩ := List.mem_map.mp hr
  have hnone : r'.target = none := hs.subjects y hy r' hr'
  rw [targetOf?_link, Reference.linkedBy, Reference.isLinked, hnone]
  cases hT : s.targetOf? r'.name with
  | none => simp [hnone, hT]
  | some target => simp [hT]

theorem subjects_valuate (s : Store) (limit : Option Nat) : (s.valuate limit).1.subjects = s.subjects := by
  have hassign := (revalued_valuate hereditary_true (fun _ _ _ _ => trivial) limit : Revalued _ _ _ s _).assign_eq
  rw [← subjects_assign noValues, hassign, subjects_assign]

theorem targetOf?_valuate (s : Store) (limit : Option Nat) : (s.valuate limit).1.targetOf? = s.targetOf? := by
  have hassign := (revalued_valuate hereditary_true (fun _ _ _ _ => trivial) limit : Revalued _ _ _ s _).assign_eq
  rw [← targetOf?_assign noValues, hassign, targetOf?_assign]

theorem isLinked_resolve (hs : s.All Declaration.IsUnlinked) (options : ResolveOptions) :
    (s.resolve options).1.IsLinked :=
  (isLinked_link hs).congr (subjects_valuate s.link.1 options.maxPasses) (targetOf?_valuate s.link.1 options.maxPasses)

theorem sameNames_resolve (options : ResolveOptions) (s : Store) : (s.resolve options).1.SameNames s :=
  (sameNames_valuate s.link.1 options.maxPasses).trans (sameNames_link s)

theorem resolveWithSource_cases {σ : Type} [ExportProvider σ] (options : ResolveOptions) (s : Store) (source : σ)
    (modules : ModuleList) :
    (s.resolveWithSource options source modules).1 = (s.resolve options).1 ∨
      ∃ x : Inquiry σ, (s.resolveWithSource options source modules).1 = ((s.resolve options).1.bind x).1 := by
  cases hbinds : options.bindsProcedures with
  | false =>
    rw [resolveWithSource_of_not_binds s modules hbinds]
    exact .inl rfl
  | true =>
    rw [resolveWithSource_of_binds s modules hbinds]
    exact .inr ⟨_, rfl⟩

section

variable {σ : Type} [ExportProvider σ]

theorem sameNames_bind (x : Inquiry σ) (s : Store) : (s.bind x).1.SameNames s := by
  refine ⟨rfl, rfl, rfl, ?_⟩
  have hsubjects := subjects_bind s x
  have hnames := congrArg (List.map fun x : Key × List Reference => (x.1.name, x.2.map (·.name))) hsubjects
  simp only [List.map_map] at hnames
  exact hnames

theorem sameNames_resolveWithSource (options : ResolveOptions) (s : Store) (source : σ) (modules : ModuleList) :
    (s.resolveWithSource options source modules).1.SameNames s := by
  have hresolve := sameNames_resolve options s
  rcases resolveWithSource_cases options s source modules with heq | ⟨x, heq⟩
  · exact heq ▸ hresolve
  · exact heq ▸ (sameNames_bind x _).trans hresolve

end

theorem SameNames.wellNamed (h : t.SameNames s) (hs : s.All IsNamed) (hindexed : s.Indexed) : t.WellNamed :=
  ⟨.of_names ⟨hs.typedefs, hindexed.typedefs.nodup⟩ h.typedefs,
    .of_names ⟨hs.definitions, hindexed.definitions.nodup⟩ h.definitions,
    .of_names ⟨hs.constants, hindexed.constants.nodup⟩ h.constants,
    .of_names ⟨hs.procedures, hindexed.procedures.nodup⟩ h.procedures⟩

end Store

def DeclarationSet.base : DeclarationSet :=
  ⟨Store.baseTypedefs, [], [], [], []⟩

theorem DeclarationSet.all_base (h : ∀ a ∈ Store.baseTypedefs, P a) : base.All P :=
  ⟨h, nofun, nofun, nofun⟩

theorem Store.base_cases : ∀ d ∈ baseTypedefs, (∃ b, d.target = .builtin b) ∨ d.target = .pointer .void := by
  intro d hd
  rcases List.mem_append.mp hd with hd | hd
  · simp only [List.mem_cons, List.not_mem_nil, or_false] at hd
    rcases hd with rfl | rfl
    · exact .inl ⟨_, rfl⟩
    · exact .inl ⟨_, rfl⟩
  · obtain ⟨handle, -, rfl⟩ := List.mem_map.mp hd
    exact .inr rfl

theorem references_base : ∀ a ∈ Store.baseTypedefs, name a ≠ "" ∧ references a = [] := by
  have hnamed : ∀ a ∈ Store.baseTypedefs, name a ≠ "" := by decide
  intro a ha
  refine ⟨hnamed a ha, ?_⟩
  rcases Store.base_cases a ha with ⟨b, htarget⟩ | htarget <;>
    simp [references, Declaration.roots, htarget, NativeType.void]

theorem Store.seeded_eq : Store.seeded = (DeclarationSet.base.stage .empty).commit.1 := by
  unfold Store.seeded DeclarationSet.stage DeclarationSet.base
  simp only [List.foldl_nil]

namespace Config

def committed (c : Config) (d : DeclarationSet) : Store :=
  (d.stage (c.newStore.setFastLoad c.fastLoad)).commit.1.setFastLoad false

theorem convert_store_eq (c : Config) (d : DeclarationSet) (source : ExportSource) :
    (c.convert d source).1 = ((c.committed d).resolveWithSource c.resolution source c.modules).1 := by
  simp only [convert, committed]

theorem newStore_cases (c : Config) :
    c.newStore = .empty ∨ c.newStore = (DeclarationSet.base.stage .empty).commit.1 := by
  unfold newStore
  cases c.seedsTypedefs with
  | false => exact .inl rfl
  | true => exact .inr Store.seeded_eq

theorem sound_newStore (c : Config) : c.newStore.Sound ∧ c.newStore.pending = 0 := by
  rcases c.newStore_cases with h | h
  · rw [h]
    exact ⟨Store.sound_empty, rfl⟩
  · rw [h]
    exact ⟨Store.sound_commit (Store.sound_stage Store.sound_empty _), Store.pending_commit _⟩

theorem tables_newStore {c : Config} (h : c.seedsTypedefs = true) :
    c.newStore.typedefs.toList = Store.baseTypedefs ∧ c.newStore.definitions.toList = [] ∧
      c.newStore.constants.toList = [] ∧ c.newStore.procedures.toList = [] := by
  rw [newStore, if_pos h, Store.seeded_eq]
  have hnew : DeclarationSet.base.IsNewTo .empty := ⟨fun a _ => Table.get?_empty (name a), nofun, nofun, nofun⟩
  obtain ⟨ht, hd, hc, hp, -⟩ := Store.commit_stage_fresh Store.sound_empty (d := .base) rfl
    ⟨by decide, by decide, by decide, by decide⟩ hnew
  exact ⟨ht, hd, hc, hp⟩

theorem all_newStore (c : Config) (h : ∀ a ∈ Store.baseTypedefs, P a) : c.newStore.All P := by
  rcases c.newStore_cases with heq | heq
  · rw [heq]
    exact Store.all_empty
  · rw [heq]
    exact Store.all_empty.commit_stage rfl (DeclarationSet.all_base h)

theorem sound_committed (c : Config) (d : DeclarationSet) : (c.committed d).Sound :=
  Store.sound_setFastLoad (Store.sound_commit (Store.sound_stage (Store.sound_setFastLoad c.sound_newStore.1 _) d)) _

theorem tables_committed {c : Config} {d : DeclarationSet} (hd : d.Distinct) (hnew : d.IsNewTo c.newStore) :
    let s := c.committed d
    s.typedefs.toList = c.newStore.typedefs.toList ++ d.typedefs ∧
      s.definitions.toList = c.newStore.definitions.toList ++ d.definitions ∧
      s.constants.toList = c.newStore.constants.toList ++ d.constants ∧
      s.procedures.toList = c.newStore.procedures.toList ++ d.procedures := by
  obtain ⟨hsound, hidle⟩ := c.sound_newStore
  have hidle : (c.newStore.setFastLoad c.fastLoad).pending = 0 :=
    (Store.sameEntries_setFastLoad (.refl _) _).pending_eq.trans hidle
  obtain ⟨ht, hdef, hc, hp⟩ := c.newStore.tables_setFastLoad c.fastLoad
  have hnew : d.IsNewTo (c.newStore.setFastLoad c.fastLoad) :=
    ⟨ht ▸ hnew.typedefs, hdef ▸ hnew.definitions, hc ▸ hnew.constants, hp ▸ hnew.procedures⟩
  obtain ⟨ht', hdef', hc', hp', -⟩ := Store.commit_stage_fresh (Store.sound_setFastLoad hsound _) hidle hd hnew
  obtain ⟨ht'', hdef'', hc'', hp''⟩ :=
    (d.stage (c.newStore.setFastLoad c.fastLoad)).commit.1.tables_setFastLoad false
  simp only [committed, ht'', hdef'', hc'', hp'', ht', hdef', hc', hp', ht, hdef, hc, hp, and_self]

theorem all_committed (c : Config) {d : DeclarationSet} (hbase : ∀ a ∈ Store.baseTypedefs, P a) (hd : d.All P) :
    (c.committed d).All P := by
  have hsame : ∀ (s : Store) on, (s.setFastLoad on).SameEntries s :=
    fun s on => Store.sameEntries_setFastLoad (.refl s) on
  refine (hsame _ _).all (Store.All.commit_stage ((hsame _ _).all (c.all_newStore hbase)) ?_ hd)
  exact (hsame _ _).pending_eq.trans c.sound_newStore.2

variable {c : Config} {d : DeclarationSet}

theorem indexed_convert (c : Config) (d : DeclarationSet) (source : ExportSource) :
    (c.convert d source).1.Indexed := by
  rw [convert_store_eq]
  exact ((Store.resolves_resolveWithSource c.resolution _ source c.modules).sound (c.sound_committed d)).toIndexed

theorem wellNamed_convert (hd : d.All IsNamed) (source : ExportSource) : (c.convert d source).1.WellNamed := by
  have hbase : ∀ a ∈ Store.baseTypedefs, IsNamed a := by
    intro a ha
    obtain ⟨hname, hreferences⟩ := references_base a ha
    refine ⟨hname, ?_⟩
    rw [hreferences]
    exact nofun
  rw [convert_store_eq]
  exact (Store.sameNames_resolveWithSource c.resolution _ source c.modules).wellNamed (c.all_committed hbase hd)
    (c.sound_committed d).toIndexed

end Config

end HeaderBinding
