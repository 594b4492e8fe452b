import HeaderBinding.Proofs.Resolve.Findings
import HeaderBinding.Proofs.Store.Staged

namespace HeaderBinding

open Declaration (name)

namespace Table

variable {α : Type} [Declaration α] [Resolvable α] {t u : Table α}

theorem Matches.indexed (h : t.Matches Resolvable.Resolves u) (ht : t.Indexed) : u.Indexed := by
  have hnames : u.toList.map name = t.toList.map name :=
    (map_eq_of_forall₂ h.entries fun _ _ hab => (Resolvable.name_eq hab).symm).symm
  intro n i
  rw [h.index_eq, ht n i, ← List.getElem?_map, ← List.getElem?_map, hnames]

theorem Matches.get?_eq_some (h : t.Matches Resolvable.Resolves u) (ht : t.Indexed) {a : α} (ha : a ∈ t.toList) :
    ∃ b, Resolvable.Resolves a b ∧ u.get? (name a) = some b := by
  obtain ⟨b, hb, hab⟩ := exists_of_forall₂_left h.entries ha
  exact ⟨b, hab, (h.indexed ht).get?_eq_some_iff.mpr ⟨hb, Resolvable.name_eq hab⟩⟩

def discloses (t : Table α) (a : α) : Bool :=
  (t.get? (name a)).any fun b => Resolvable.findings b ≠ Resolvable.findings a

theorem Matches.rejects_eq (h : t.Matches Resolvable.Resolves u) (ht : t.Indexed) {a : α} (ha : a ∈ t.toList) :
    u.rejects a = u.discloses a := by
  obtain ⟨b, hab, hb⟩ := h.get?_eq_some ht ha
  have hiff := Resolvable.sameContent_iff hab
  rw [rejects, discloses, hb, Option.any_some, Option.any_some, Bool.eq_iff_iff, Bool.not_eq_true', decide_eq_true_iff,
    ← Bool.not_eq_true, hiff]

end Table

namespace DeclarationSet

structure Within (e d : DeclarationSet) : Prop where
  typedefs : e.typedefs ⊆ d.typedefs
  definitions : e.definitions ⊆ d.definitions
  constants : e.constants ⊆ d.constants
  procedures : e.procedures ⊆ d.procedures

end DeclarationSet

namespace Store

variable {s t : Store} {d e : DeclarationSet}

def disclosed (s : Store) (d : DeclarationSet) : Diagnostics :=
  (d.typedefs.filter s.typedefs.discloses).map clash ++
    (d.definitions.filter s.definitions.discloses).map clash ++
    (d.constants.filter s.constants.discloses).map clash ++
    (d.procedures.filter s.procedures.discloses).map clash

def resolveAlong (runs : List (ResolveOptions × ExportSource × ModuleList)) (s : Store) : Store :=
  runs.foldl (fun s run => (s.resolveWithSource run.1 run.2.1 run.2.2).1) s

theorem resolves_resolveAlong (runs : List (ResolveOptions × ExportSource × ModuleList)) (s : Store) :
    s.Resolves (s.resolveAlong runs) := by
  induction runs generalizing s with
  | nil => exact .refl s
  | cons run rest ih => exact (resolves_resolveWithSource run.1 s run.2.1 run.2.2).trans (ih _)

theorem Resolves.sound (h : s.Resolves t) (hs : s.Sound) : t.Sound := by
  refine ⟨⟨h.typedefs.indexed hs.typedefs, h.definitions.indexed hs.definitions, h.constants.indexed hs.constants,
    h.procedures.indexed hs.procedures⟩, ?_, ?_, ?_, ?_⟩ <;> rw [h.eq]
  · exact hs.stagedTypedefs
  · exact hs.stagedDefinitions
  · exact hs.stagedConstants
  · exact hs.stagedProcedures

theorem Resolves.pending_eq (h : s.Resolves t) : t.pending = s.pending := by
  rw [h.eq]
  rfl

structure Holds (s : Store) (d : DeclarationSet) : Prop where
  typedefs : d.typedefs ⊆ s.typedefs.toList
  definitions : d.definitions ⊆ s.definitions.toList
  constants : d.constants ⊆ s.constants.toList
  procedures : d.procedures ⊆ s.procedures.toList

theorem holds_commit_stage (hs : s.Sound) (hidle : s.pending = 0) (hd : d.Distinct) (hnew : d.IsNewTo s)
    (he : e.Within d) : (d.stage s).commit.1.Holds e := by
  obtain ⟨htypedefs, hdefinitions, hconstants, hprocedures, -⟩ := commit_stage_fresh hs hidle hd hnew
  constructor
  · rw [htypedefs]
    exact List.subset_append_of_subset_right _ he.typedefs
  · rw [hdefinitions]
    exact List.subset_append_of_subset_right _ he.definitions
  · rw [hconstants]
    exact List.subset_append_of_subset_right _ he.constants
  · rw [hprocedures]
    exact List.subset_append_of_subset_right _ he.procedures

theorem Resolves.isHeldBy (h : s.Resolves t) (hs : s.Sound) (he : s.Holds e) : e.IsHeldBy t :=
  ⟨fun _ ha => (h.typedefs.get?_eq_some hs.typedefs (he.typedefs ha)).imp fun _ hb => hb.2,
    fun _ ha => (h.definitions.get?_eq_some hs.definitions (he.definitions ha)).imp fun _ hb => hb.2,
    fun _ ha => (h.constants.get?_eq_some hs.constants (he.constants ha)).imp fun _ hb => hb.2,
    fun _ ha => (h.procedures.get?_eq_some hs.procedures (he.procedures ha)).imp fun _ hb => hb.2⟩

theorem Resolves.conflicts_eq (h : s.Resolves t) (hs : s.Sound) (he : s.Holds e) : t.conflicts e = t.disclosed e := by
  rw [conflicts, disclosed, List.filter_congr fun a ha => h.typedefs.rejects_eq hs.typedefs (he.typedefs ha),
    List.filter_congr fun a ha => h.definitions.rejects_eq hs.definitions (he.definitions ha),
    List.filter_congr fun a ha => h.constants.rejects_eq hs.constants (he.constants ha),
    List.filter_congr fun a ha => h.procedures.rejects_eq hs.procedures (he.procedures ha)]

theorem commit_stage_resolved (hs : s.Sound) (hidle : s.pending = 0) (hd : d.Distinct) (hnew : d.IsNewTo s)
    (runs : List (ResolveOptions × ExportSource × ModuleList)) (he : e.Distinct) (hwithin : e.Within d) :
    let t := (d.stage s).commit.1.resolveAlong runs
    let again := (e.stage t).commit
    again.1.SameEntries t ∧ (∀ k, again.1.find? k = t.find? k) ∧ again.2 = ⟨0, e.size, t.disclosed e⟩ := by
  intro t again
  have hcommitted : (d.stage s).commit.1.Sound := sound_commit (sound_stage hs d)
  have hholds := holds_commit_stage hs hidle hd hnew hwithin
  have hresolves := resolves_resolveAlong runs (d.stage s).commit.1
  have ht : t.Sound := hresolves.sound hcommitted
  have hidle' : t.pending = 0 := hresolves.pending_eq.trans (pending_commit _)
  obtain ⟨hentries, hreport⟩ := commit_stage_held ht hidle' he (hresolves.isHeldBy hcommitted hholds)
  rw [hresolves.conflicts_eq hcommitted hholds] at hreport
  exact ⟨hentries, find?_congr (sound_commit (sound_stage ht e)) ht hentries, hreport⟩

theorem commit_stage_resolved_of_sample :
    let d : DeclarationSet := ⟨[⟨"P", .pointer (.named (.unlinked "S" .empty))⟩], [.record .struct ⟨"S", []⟩],
      [⟨"A", "1 + 1", .preprocessor, none⟩], [⟨"Beep", .void, [], none, none⟩], []⟩
    let runs := [(ResolveOptions.standard, ExportSource.empty.withModule "user32.dll" ["Beep"],
      ModuleList.ofList ["user32.dll"])]
    let t := (d.stage empty).commit.1.resolveAlong runs
    let again := (d.stage t).commit
    empty.Sound ∧ empty.pending = 0 ∧ d.Distinct ∧ d.IsNewTo empty ∧ d.Within d ∧
      again.1.SameEntries t ∧ (∀ k, again.1.find? k = t.find? k) ∧ again.2 = ⟨0, 4, t.disclosed d⟩ := by
  intro d runs
  have hd : d.Distinct := ⟨by decide, by decide, by decide, by decide⟩
  have hnew : d.IsNewTo empty := ⟨fun a _ => Table.get?_empty (name a), fun a _ => Table.get?_empty (name a),
    fun a _ => Table.get?_empty (name a), fun a _ => Table.get?_empty (name a)⟩
  have hwithin : d.Within d := ⟨fun _ h => h, fun _ h => h, fun _ h => h, fun _ h => h⟩
  exact ⟨sound_empty, rfl, hd, hnew, hwithin, commit_stage_resolved sound_empty rfl hd hnew runs hd hwithin⟩

end Store

end HeaderBinding
