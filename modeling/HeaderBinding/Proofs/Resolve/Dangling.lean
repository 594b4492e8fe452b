import HeaderBinding.Proofs.Convert.Converted
import HeaderBinding.Proofs.Store.Subjects
import HeaderBinding.Resolve.Session

namespace HeaderBinding

open Declaration (name)

theorem Reference.linkedBy_cases (T : String → Option Target) (r : Reference) :
    (r.isLinked = true ∧ r.linkedBy T = r) ∨
      (r.target = none ∧ T r.name = none ∧ r.linkedBy T = r) ∨
      ∃ target, r.target = none ∧ T r.name = some target ∧ r.linkedBy T = { r with target := some target } := by
  unfold linkedBy
  split
  · next h => exact .inl ⟨h, rfl⟩
  · next h =>
    have hnone : r.target = none := Option.not_isSome_iff_eq_none.mp h
    cases hT : T r.name with
    | none => exact .inr (.inl ⟨hnone, rfl, rfl⟩)
    | some target => exact .inr (.inr ⟨target, hnone, rfl, rfl⟩)

def Reference.isUnknown (T : String → Option Target) (r : Reference) : Bool :=
  !r.isLinked && (T r.name).isNone

theorem LinkTally.missing_foldl (T : String → Option Target) (refs : List Reference) (tally : LinkTally) :
    (refs.foldl (meet T) tally).missing = tally.missing ++ (refs.filter (·.isUnknown T)).map (·.name) := by
  induction refs generalizing tally with
  | nil => exact (List.append_nil _).symm
  | cons r rest ih =>
    rw [List.foldl_cons, ih]
    unfold meet Reference.isUnknown
    by_cases hr : r.isLinked = true
    · simp [hr]
    · cases hT : T r.name with
      | some target => simp [hr, hT]
      | none => simp [hr, hT]

theorem LinkReport.diagnostics_foldl (T : String → Option Target) (subjects : List (Key × List Reference))
    (report : LinkReport) :
    (subjects.foldl (meet T) report).diagnostics = report.diagnostics ++ subjects.flatMap fun x =>
      ((x.2.filter (·.isUnknown T)).map (·.name)).eraseDups.map (Store.unknownType x.1) := by
  induction subjects generalizing report with
  | nil => exact (List.append_nil _).symm
  | cons x rest ih =>
    rw [List.foldl_cons, ih, List.flatMap_cons, ← List.append_assoc, meet, LinkTally.of, LinkTally.missing_foldl]
    rfl

namespace Store

variable {s : Store} {k : Key}

theorem subjects_resolve (s : Store) (options : ResolveOptions) :
    (s.resolve options).1.subjects = s.subjects.map fun x => (x.1, x.2.map (·.linkedBy s.targetOf?)) :=
  (subjects_valuate s.link.1 options.maxPasses).trans (subjects_link s)

theorem node?_resolve (hs : s.Sound) (options : ResolveOptions) :
    ((s.resolve options).1.node? k).isSome = (s.node? k).isSome := by
  have ht : (s.resolve options).1.Sound := (resolves_resolve s options).sound hs
  rw [Bool.eq_iff_iff, node?_isSome_iff hs.toIndexed, node?_isSome_iff ht.toIndexed, subjects_resolve]
  simp

theorem diagnostics_link (s : Store) :
    s.link.2.diagnostics = s.subjects.flatMap fun x =>
      ((x.2.filter (·.isUnknown s.targetOf?)).map (·.name)).eraseDups.map (unknownType x.1) := by
  rw [link_eq]
  exact LinkReport.diagnostics_foldl s.targetOf? s.subjects .empty

theorem mem_diagnostics_resolve (options : ResolveOptions) {x : Key × List Reference} (hx : x ∈ s.subjects)
    {r : Reference} (hr : r ∈ x.2) (hlink : r.target = none) (htarget : s.targetOf? r.name = none) :
    unknownType x.1 r.name ∈ (s.resolve options).2.diagnostics := by
  have hunknown : r.isUnknown s.targetOf? = true := by simp [Reference.isUnknown, Reference.isLinked, hlink, htarget]
  have hlinks : unknownType x.1 r.name ∈ s.link.2.diagnostics := by
    rw [diagnostics_link]
    refine List.mem_flatMap.mpr ⟨x, hx, List.mem_map_of_mem (List.mem_eraseDups.mpr ?_)⟩
    exact List.mem_map_of_mem (List.mem_filter.mpr ⟨hr, hunknown⟩)
  exact List.mem_append_left _ hlinks

theorem follow?_after_remove (hs : s.Sound) (options : ResolveOptions) {x : Key × List Reference} (hx : x ∈ s.subjects)
    (hne : x.1 ≠ k) (hlinked : ∀ x ∈ s.subjects, ∀ r ∈ x.2, r.isLinked = true) :
    let removed := (s.remove k).2
    x ∈ (removed.resolve options).1.subjects ∧
      (∀ r ∈ x.2, r.target = some (.declaration k) → (removed.resolve options).1.follow? r = none) ∧
      removed.link.2.diagnostics = [] := by
  intro removed
  have hremoved : removed.Sound := sound_remove hs k
  have hsubjects : removed.subjects = s.subjects.filter (·.1 != k) := subjects_remove hs.toIndexed k
  refine ⟨?_, fun r hr htarget => ?_, ?_⟩
  · have hstays : ∀ r ∈ x.2, r.linkedBy removed.targetOf? = r := fun r hr => if_pos (hlinked x hx r hr)
    rw [subjects_resolve, hsubjects]
    refine List.mem_map.mpr ⟨x, List.mem_filter.mpr ⟨hx, by rwa [bne_iff_ne]⟩, ?_⟩
    rw [List.map_congr_left hstays, List.map_id']
  · rw [follow?, htarget]
    change (removed.resolve options).1.node? k = none
    rw [← Option.not_isSome_iff_eq_none, node?_resolve hremoved, node?_isSome_iff hremoved.toIndexed, hsubjects]
    rintro ⟨-, y, hy, hk⟩
    exact bne_iff_ne.mp (List.mem_filter.mp hy).2 hk
  · rw [diagnostics_link, List.flatMap_eq_nil_iff]
    intro y hy
    rw [hsubjects] at hy
    have hnone : y.2.filter (·.isUnknown removed.targetOf?) = [] := by
      refine List.filter_eq_nil_iff.mpr fun r hr => ?_
      simp [Reference.isUnknown, hlinked y (List.mem_of_mem_filter hy) r hr]
    rw [hnone]
    rfl

theorem reference_resolve (hs : s.Sound) (options : ResolveOptions) :
    ∀ x ∈ (s.resolve options).1.subjects, ∀ r ∈ x.2,
      (∃ b, r.target = some (.builtin b)) ∨
      (∃ k, r.target = some (.declaration k) ∧ ((s.resolve options).1.follow? r).isSome = true) ∨
      (r.target = none ∧ ⟨.warning, .unresolvedReference, some x.1,
        "reference to unknown type '" ++ r.name ++ "' left opaque"⟩ ∈ (s.resolve options).2.diagnostics) ∨
      ∃ k, r.target = some (.declaration k) ∧ (s.resolve options).1.node? k = none ∧ ∃ y ∈ s.subjects, r ∈ y.2 := by
  intro x hx r hr
  rw [subjects_resolve] at hx
  obtain ⟨y, hy, rfl⟩ := List.mem_map.mp hx
  obtain ⟨r', hr', rfl⟩ := List.mem_map.mp hr
  have hfollow : ∀ {k}, (r'.linkedBy s.targetOf?).target = some (.declaration k) →
      (s.resolve options).1.follow? (r'.linkedBy s.targetOf?) = (s.resolve options).1.node? k := by
    intro k htarget
    rw [follow?, htarget]
  rcases r'.linkedBy_cases s.targetOf? with ⟨hlinked, heq⟩ | ⟨hnone, htarget, heq⟩ | ⟨target, -, htarget, heq⟩
  · obtain ⟨target, htarget⟩ := Option.isSome_iff_exists.mp hlinked
    rw [← heq] at htarget
    cases target with
    | builtin b => exact .inl ⟨b, htarget⟩
    | declaration k =>
      cases hk : (s.resolve options).1.node? k with
      | some node => exact .inr (.inl ⟨k, htarget, by rw [hfollow htarget, hk]; rfl⟩)
      | none => exact .inr (.inr (.inr ⟨k, htarget, hk, y, hy, by rwa [heq]⟩))
  · refine .inr (.inr (.inl ?_))
    rw [heq]
    exact ⟨hnone, mem_diagnostics_resolve options hy hr' hnone htarget⟩
  · have hnew : (r'.linkedBy s.targetOf?).target = some target := by rw [heq]
    cases target with
    | builtin b => exact .inl ⟨b, hnew⟩
    | declaration k =>
      refine .inr (.inl ⟨k, hnew, ?_⟩)
      rw [hfollow hnew, node?_resolve hs]
      exact node?_of_targetOf? htarget

theorem linked_resolve (options : ResolveOptions) {x : Key × List Reference}
    (hx : x ∈ (s.resolve options).1.subjects ++ (s.resolve options).1.stagedSubjects) {r : Reference} (hr : r ∈ x.2)
    (htarget : r.target = some (.declaration k)) :
    (∃ y ∈ s.subjects ++ s.stagedSubjects, r ∈ y.2) ∨ (s.node? k).isSome = true := by
  have hstaged : (s.resolve options).1.stagedSubjects = s.stagedSubjects := by
    rw [(resolves_resolve s options).eq]
    rfl
  rw [hstaged, subjects_resolve, List.mem_append] at hx
  rcases hx with hx | hx
  · obtain ⟨y, hy, rfl⟩ := List.mem_map.mp hx
    obtain ⟨r', hr', rfl⟩ := List.mem_map.mp hr
    have hkept : r'.linkedBy s.targetOf? = r' → ∃ y ∈ s.subjects ++ s.stagedSubjects, r'.linkedBy s.targetOf? ∈ y.2 :=
      fun heq => ⟨y, List.mem_append_left _ hy, by rwa [heq]⟩
    rcases r'.linkedBy_cases s.targetOf? with ⟨-, heq⟩ | ⟨-, -, heq⟩ | ⟨target, -, hdenoted, heq⟩
    · exact .inl (hkept heq)
    · exact .inl (hkept heq)
    · rw [heq] at htarget
      cases htarget
      exact .inr (node?_of_targetOf? hdenoted)
  · exact .inl ⟨x, List.mem_append_right _ hx, hr⟩

theorem after_append (s : Store) (earlier later : List Action) :
    s.after (earlier ++ later) = (s.after earlier).after later :=
  List.foldl_append

theorem after_concat (s : Store) (actions : List Action) (a : Action) :
    s.after (actions ++ [a]) = (s.after actions).act a := by
  rw [after_append]
  rfl

theorem sound_act (hs : s.Sound) (a : Action) : (s.act a).Sound := by
  cases a with
  | edit op => exact sound_perform hs op
  | resolve options => exact (resolves_resolve s options).sound hs

theorem sound_after (hs : s.Sound) (actions : List Action) : (s.after actions).Sound := by
  induction actions generalizing s with
  | nil => exact hs
  | cons a rest ih => exact ih (sound_act hs a)

theorem node?_act (hs : s.Sound) (hk : (s.node? k).isSome = true) {a : Action} (ha : a ≠ .edit (.remove k)) :
    ((s.act a).node? k).isSome = true := by
  cases a with
  | resolve options => exact (node?_resolve hs options).trans hk
  | edit op =>
    obtain ⟨hcategory, x, hx, rfl⟩ := (node?_isSome_iff hs.toIndexed).mp hk
    refine (node?_isSome_iff (sound_act hs (.edit op)).toIndexed).mpr ⟨hcategory, x, ?_, rfl⟩
    refine ((edits_perform hs.toIndexed op).keeps x hx).resolve_right ?_
    rintro rfl
    exact ha rfl

theorem node?_after (hs : s.Sound) (hk : (s.node? k).isSome = true) {actions : List Action}
    (hactions : .edit (.remove k) ∉ actions) : ((s.after actions).node? k).isSome = true := by
  induction actions generalizing s with
  | nil => exact hk
  | cons a rest ih =>
    rw [List.mem_cons, not_or] at hactions
    exact ih (sound_act hs a) (node?_act hs hk (Ne.symm hactions.1)) hactions.2

def Led (actions : List Action) (k : Key) : Prop :=
  ∃ earlier options later, actions = earlier ++ .resolve options :: later ∧
    ((Store.empty.after earlier).node? k).isSome = true

theorem Led.concat {actions : List Action} (h : Led actions k) (a : Action) : Led (actions ++ [a]) k := by
  obtain ⟨earlier, options, later, rfl, hk⟩ := h
  exact ⟨earlier, options, later ++ [a], by simp, hk⟩

theorem led_of_linked {actions : List Action} (hadd : ∀ e, .edit (.add e) ∈ actions → e.IsUnlinked) :
    ∀ x ∈ (Store.empty.after actions).subjects ++ (Store.empty.after actions).stagedSubjects, ∀ r ∈ x.2,
      r.target = some (.declaration k) → Led actions k := by
  induction actions using List.reverseRecOn with
  | nil => exact nofun
  | append_singleton actions a ih =>
    have hlinked := ih fun e he => hadd e (List.mem_append_left _ he)
    intro x hx r hr htarget
    rw [after_concat] at hx
    cases a with
    | edit op =>
      have hs := sound_after sound_empty actions
      rcases (edits_perform hs.toIndexed op).brings x hx with hx | ⟨e, rfl, rfl⟩
      · exact (hlinked x hx r hr htarget).concat _
      · have hnone := hadd e (List.mem_append_right _ (List.mem_singleton_self _)) r hr
        rw [hnone] at htarget
        cases htarget
    | resolve options =>
      rcases linked_resolve options hx hr htarget with ⟨y, hy, hr⟩ | hheld
      · exact (hlinked y hy r hr htarget).concat _
      · exact ⟨actions, options, [], rfl, hheld⟩

def Lost (actions : List Action) (k : Key) : Prop :=
  ∃ earlier options later, actions = earlier ++ .resolve options :: later ∧
    ((Store.empty.after earlier).node? k).isSome = true ∧ .edit (.remove k) ∈ later

theorem Led.lost {actions : List Action} (h : Led actions k) (hk : (Store.empty.after actions).node? k = none) :
    Lost actions k := by
  obtain ⟨earlier, options, later, rfl, hheld⟩ := h
  refine ⟨earlier, options, later, rfl, hheld, ?_⟩
  by_contra hremoved
  have hs := sound_after sound_empty earlier
  have hresolved := node?_act hs hheld (a := .resolve options) nofun
  have hkept := node?_after (sound_act hs (.resolve options)) hresolved hremoved
  rw [after_append] at hk
  change (((Store.empty.after earlier).act (.resolve options)).after later).node? k = none at hk
  rw [hk] at hkept
  cases hkept

theorem reference_cases {actions : List Action} (hadd : ∀ e, .edit (.add e) ∈ actions → e.IsUnlinked)
    (options : ResolveOptions) :
    let resolved := (Store.empty.after actions).resolve options
    ∀ x ∈ resolved.1.subjects, ∀ r ∈ x.2,
      (∃ b, r.target = some (.builtin b)) ∨
      (∃ k, r.target = some (.declaration k) ∧ (resolved.1.follow? r).isSome = true) ∨
      (r.target = none ∧ ⟨.warning, .unresolvedReference, some x.1,
        "reference to unknown type '" ++ r.name ++ "' left opaque"⟩ ∈ resolved.2.diagnostics) ∨
      ∃ k, r.target = some (.declaration k) ∧ resolved.1.node? k = none ∧ Lost actions k := by
  intro resolved x hx r hr
  have hs := sound_after sound_empty actions
  refine (reference_resolve hs options x hx r hr).imp_right (.imp_right (.imp_right ?_))
  rintro ⟨k, htarget, hk, y, hy, hr⟩
  have hgone : (Store.empty.after actions).node? k = none := by
    rw [← Option.not_isSome_iff_eq_none, ← node?_resolve hs options, hk]
    exact Bool.false_ne_true
  exact ⟨k, htarget, hk, (led_of_linked hadd y (List.mem_append_left _ hy) r hr htarget).lost hgone⟩

def pair : DeclarationSet :=
  ⟨[⟨"A", .named (.unlinked "B" .empty)⟩], [.record .struct ⟨"B", []⟩], [], [], []⟩

def removal : List Action :=
  [.edit (.add (.synonym ⟨"A", .named (.unlinked "B" .empty)⟩)), .edit (.add (.definition (.record .struct ⟨"B", []⟩))),
    .edit .commit, .resolve .standard, .edit (.remove (.definedType "B"))]

theorem subjects_pair (options : ResolveOptions) :
    ((pair.stage empty).commit.1.resolve options).1.subjects =
      [(.synonym "A", [⟨"B", some (.declaration (.definedType "B")), .empty⟩]), (.definedType "B", [])] := by
  have hs : (pair.stage empty).commit.1.Sound := sound_commit (sound_stage sound_empty pair)
  have hnew : pair.IsNewTo empty := ⟨fun a _ => Table.get?_empty (name a), fun a _ => Table.get?_empty (name a),
    fun a _ => Table.get?_empty (name a), fun a _ => Table.get?_empty (name a)⟩
  obtain ⟨htypedefs, hdefinitions, -, hprocedures, -⟩ :=
    commit_stage_fresh sound_empty (d := pair) rfl ⟨by decide, by decide, by decide, by decide⟩ hnew
  have hsubjects : (pair.stage empty).commit.1.subjects =
      [(.synonym "A", [.unlinked "B" .empty]), (.definedType "B", [])] := by
    rw [subjects, htypedefs, hdefinitions, hprocedures]
    simp [pair, empty, Table.empty, Table.toList, subject, Declaration.key, Declaration.references, Declaration.roots,
      Declaration.name, Declaration.category, Definition.memberTypes, Definition.name, Key.synonym, Key.definedType]
  have hget : (pair.stage empty).commit.1.definitions.get? "B" = some (.record .struct ⟨"B", []⟩) := by
    refine hs.definitions.get?_eq_some_iff.mpr ⟨?_, rfl⟩
    rw [hdefinitions]
    exact List.mem_append_right _ (List.mem_singleton_self _)
  have htarget : (pair.stage empty).commit.1.targetOf? "B" = some (.declaration (.definedType "B")) := by
    simp [targetOf?, byName?, hget, Node.key, Definition.name]
  rw [subjects_resolve, hsubjects]
  simp [Reference.linkedBy, Reference.isLinked, Reference.unlinked, htarget]

theorem reference_cases_of_removal :
    (∀ e, .edit (.add e) ∈ removal → e.IsUnlinked) ∧
      ∃ r : Reference, (.synonym "A", [r]) ∈ ((Store.empty.after removal).resolve .standard).1.subjects ∧
        r.target = some (.declaration (.definedType "B")) ∧
        ((Store.empty.after removal).resolve .standard).1.follow? r = none ∧
        (Store.empty.after removal).link.2.diagnostics = [] ∧ Lost removal (.definedType "B") := by
  have hadd : ∀ e, .edit (.add e) ∈ removal → e.IsUnlinked := by
    intro e he
    simp only [removal, List.mem_cons, Action.edit.injEq, Store.Operation.add.injEq, reduceCtorEq, or_false,
      List.not_mem_nil] at he
    rcases he with rfl | rfl
    · simp [Entry.IsUnlinked, Entry.subject, subject, Declaration.references, Declaration.roots, Reference.unlinked]
    · simp [Entry.IsUnlinked, Entry.subject, subject, Declaration.references, Declaration.roots, Definition.memberTypes]
  have hafter : Store.empty.after removal =
      (((pair.stage empty).commit.1.resolve .standard).1.remove (.definedType "B")).2 := rfl
  have hsubjects := subjects_pair .standard
  have hs : ((pair.stage empty).commit.1.resolve .standard).1.Sound :=
    (resolves_resolve _ _).sound (sound_commit (sound_stage sound_empty pair))
  have hcases := reference_cases hadd .standard
  rw [hafter] at hcases ⊢
  generalize ((pair.stage empty).commit.1.resolve .standard).1 = s at hsubjects hs hcases
  have hlinked : ∀ x ∈ s.subjects, ∀ r ∈ x.2, r.isLinked = true := by
    rw [hsubjects]
    simp [Reference.isLinked]
  have hx : (.synonym "A", [⟨"B", some (.declaration (.definedType "B")), .empty⟩]) ∈ s.subjects := by
    rw [hsubjects]
    exact List.mem_cons_self ..
  obtain ⟨hx, hfollow, hdiagnostics⟩ :=
    follow?_after_remove (k := .definedType "B") hs .standard hx (by decide) hlinked
  have hnowhere := hfollow _ (List.mem_singleton_self _) rfl
  refine ⟨hadd, _, hx, rfl, hnowhere, hdiagnostics, ?_⟩
  rcases hcases _ hx _ (List.mem_singleton_self _) with ⟨b, hb⟩ | ⟨k, -, hk⟩ | ⟨hnone, -⟩ | ⟨k, hk, -, hlost⟩
  · cases hb
  · rw [hnowhere] at hk
    cases hk
  · cases hnone
  · cases hk
    exact hlost

end Store

end HeaderBinding
