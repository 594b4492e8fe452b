import HeaderBinding.Proofs.Native.Related
import HeaderBinding.Proofs.Resolve.Dangling

namespace HeaderBinding

open Declaration (name key category)
open NativeType (Related AlikeParams)

inductive Attaches (s : Store) : Reference → Reference → Prop where
  | kept {r : Reference} : r.isLinked = true → Attaches s r r
  | declaration {r : Reference} {n : Node} : r.target = none → s.byName? r.name = some n →
      Attaches s r { r with target := some (.declaration n.key) }
  | builtin {r : Reference} {b : Builtin} : r.target = none → s.byName? r.name = none →
      Builtin.ofSpelling? r.name = some b → Attaches s r { r with target := some (.builtin b) }
  | unknown {r : Reference} : r.target = none → s.byName? r.name = none → Builtin.ofSpelling? r.name = none →
      Attaches s r r

def Reference.isFound (T : String → Option Target) (r : Reference) : Bool :=
  !r.isLinked && (T r.name).isSome

variable {s : Store}

theorem attaches_linkedBy (s : Store) (r : Reference) : Attaches s r (r.linkedBy s.targetOf?) := by
  rcases r.linkedBy_cases s.targetOf? with ⟨hlinked, heq⟩ | ⟨hnone, htarget, heq⟩ | ⟨target, hnone, htarget, heq⟩
  · rw [heq]
    exact .kept hlinked
  · rw [heq]
    unfold Store.targetOf? at htarget
    split at htarget
    · cases htarget
    · next hname => exact .unknown hnone hname (Option.map_eq_none_iff.mp htarget)
  · rw [heq]
    unfold Store.targetOf? at htarget
    split at htarget
    · next n hname =>
      cases htarget
      exact .declaration hnone hname
    · next hname =>
      obtain ⟨b, hb, rfl⟩ := Option.map_eq_some_iff.mp htarget
      exact .builtin hnone hname hb

def Typedef.Attached (s : Store) (d d' : Typedef) : Prop :=
  d.name = d'.name ∧ Related (Attaches s) Eq d.target d'.target

def Definition.Attached (s : Store) (d d' : Definition) : Prop :=
  Related (Attaches s) Eq d.toType d'.toType

structure Procedure.Attached (s : Store) (p p' : Procedure) : Prop where
  name : p.name = p'.name
  returns : Related (Attaches s) Eq p.returns p'.returns
  params : List.Forall₂ (AlikeParams (Related (Attaches s) Eq)) p.params p'.params
  convention : p.convention = p'.convention
  module : p.module = p'.module

theorem related_linked (s : Store) (t : NativeType) :
    Related (Attaches s) Eq t (t.rewrite (·.linkedBy s.targetOf?) id) :=
  NativeType.related_rewrite (attaches_linkedBy s) (fun _ => rfl) t

theorem Typedef.attached_relink (s : Store) (d : Typedef) : d.Attached s (Store.relink s.targetOf? d) :=
  ⟨rfl, related_linked s d.target⟩

theorem Definition.attached_relink (s : Store) (d : Definition) : d.Attached s (Store.relink s.targetOf? d) := by
  cases d with
  | record kind body =>
    rw [Store.relink, mapRoots_record]
    refine Related.record (List.forall₂_map_right_iff.mpr (List.forall₂_same.mpr ?_)) kind body.name
    exact fun m _ => ⟨rfl, related_linked s m.type⟩
  | enumeration e => exact Related.enumeration rfl

theorem Procedure.attached_relink (s : Store) (p : Procedure) : p.Attached s (Store.relink s.targetOf? p) := by
  rw [Store.relink, mapRoots_eq]
  refine ⟨rfl, related_linked s p.returns, ?_, rfl, rfl⟩
  refine List.forall₂_map_right_iff.mpr (List.forall₂_same.mpr ?_)
  exact fun q _ => ⟨rfl, rfl, related_linked s q.type⟩

def Table.Corresponds {α : Type} (P : α → α → Prop) (t t' : Table α) : Prop :=
  t'.index = t.index ∧ List.Forall₂ P t.toList t'.toList

theorem Table.corresponds_map {α : Type} {P : α → α → Prop} {f : α → α} (hP : ∀ a, P a (f a)) (t : Table α) :
    Corresponds P t (t.map f) := by
  refine ⟨rfl, ?_⟩
  rw [toList_map]
  exact List.forall₂_map_right_iff.mpr (List.forall₂_same.mpr fun a _ => hP a)

theorem Store.getElem?_enter {α : Type} [Declaration α] (entries : List α) (names : Std.HashMap String Key)
    (n : String) : (nameTable.enter entries names)[n]? =
      if entries.any (name · == n) then some ⟨category α, n⟩ else names[n]? := by
  unfold nameTable.enter
  induction entries generalizing names with
  | nil => rfl
  | cons a rest ih =>
    rw [List.foldl_cons, ih, List.any_cons, Std.HashMap.getElem?_insert]
    by_cases hname : name a = n
    · simp [hname, key]
    · simp [hname]

theorem Table.Indexed.any_eq {α : Type} [Declaration α] {t : Table α} (h : t.Indexed) (n : String) :
    t.toList.any (name · == n) = (t.get? n).isSome := by
  rw [h.get?_eq, List.isSome_find?]

theorem Store.getElem?_nameTable (hs : s.Indexed) (n : String) : s.nameTable[n]? = (s.byName? n).map Node.key := by
  unfold nameTable byName?
  rw [getElem?_enter, getElem?_enter, hs.definitions.any_eq, hs.typedefs.any_eq, Std.HashMap.getElem?_empty]
  cases hd : s.definitions.get? n with
  | some d =>
    have hname : d.name = n := (Table.mem_of_get?_eq_some hd).2
    simp [Node.key, Key.definedType, hname, category]
  | none =>
    cases ht : s.typedefs.get? n with
    | some d =>
      have hname : d.name = n := (Table.mem_of_get?_eq_some ht).2
      simp [Node.key, Key.synonym, hname, category]
    | none => rfl

section

variable (T : String → Option Target)

theorem LinkTally.linked_foldl (refs : List Reference) (tally : LinkTally) :
    (refs.foldl (meet T) tally).linked = tally.linked + refs.countP (·.isFound T) := by
  induction refs generalizing tally with
  | nil => rfl
  | cons r rest ih =>
    rw [List.foldl_cons, ih, List.countP_cons]
    unfold meet Reference.isFound
    by_cases hr : r.isLinked = true
    · simp [hr]
    · cases hT : T r.name with
      | some target =>
        simp [hr]
        omega
      | none => simp [hr]

theorem LinkTally.alreadyLinked_foldl (refs : List Reference) (tally : LinkTally) :
    (refs.foldl (meet T) tally).alreadyLinked = tally.alreadyLinked + refs.countP (·.isLinked) := by
  induction refs generalizing tally with
  | nil => rfl
  | cons r rest ih =>
    rw [List.foldl_cons, ih, List.countP_cons]
    unfold meet
    by_cases hr : r.isLinked = true
    · simp [hr]
      omega
    · cases hT : T r.name <;> simp [hr]

theorem LinkTally.length_missing_of (refs : List Reference) :
    (of T refs).missing.length = refs.countP (·.isUnknown T) := by
  rw [of, missing_foldl, List.nil_append, List.length_map, List.countP_eq_length_filter]

theorem LinkReport.counts_foldl (subjects : List (Key × List Reference)) (report : LinkReport) :
    let refs := subjects.flatMap (·.2)
    let after := subjects.foldl (meet T) report
    after.linked = report.linked + refs.countP (·.isFound T) ∧
      after.alreadyLinked = report.alreadyLinked + refs.countP (·.isLinked) ∧
      after.unresolved = report.unresolved + refs.countP (·.isUnknown T) := by
  induction subjects generalizing report with
  | nil => exact ⟨rfl, rfl, rfl⟩
  | cons x rest ih =>
    obtain ⟨hlinked, halready, hunresolved⟩ := ih (report.meet T x)
    simp only [List.foldl_cons, List.flatMap_cons, List.countP_append]
    refine ⟨hlinked.trans ?_, halready.trans ?_, hunresolved.trans ?_⟩
    · simp only [meet, LinkTally.of, LinkTally.linked_foldl]
      omega
    · simp only [meet, LinkTally.of, LinkTally.alreadyLinked_foldl]
      omega
    · simp only [meet, LinkTally.length_missing_of]
      omega

theorem Reference.countP_kinds (refs : List Reference) :
    refs.countP (·.isFound T) + refs.countP (·.isLinked) + refs.countP (·.isUnknown T) = refs.length := by
  induction refs with
  | nil => rfl
  | cons r rest ih =>
    rw [List.length_cons, ← ih, List.countP_cons, List.countP_cons, List.countP_cons]
    unfold isFound isUnknown
    cases r.isLinked <;> cases T r.name <;> simp <;> omega

end

theorem Table.Indexed.nodup_keys {α : Type} [Declaration α] {t : Table α} (h : t.Indexed) :
    (t.toList.map key).Nodup := by
  refine List.Nodup.of_map Key.name ?_
  rw [List.map_map]
  exact h.nodup

theorem nodup_eraseDups : ∀ names : List String, names.eraseDups.Nodup
  | [] => .nil
  | n :: rest => by
    rw [List.eraseDups_cons, List.nodup_cons]
    refine ⟨?_, nodup_eraseDups _⟩
    rw [List.mem_eraseDups, List.mem_filter]
    simp
termination_by names => names.length
decreasing_by exact Nat.lt_succ_of_le (List.length_filter_le _ rest)

namespace Store

theorem category_of_mem_keys {α : Type} [Declaration α] {t : Table α} {k : Key} (h : k ∈ t.toList.map key) :
    k.category = category α := by
  obtain ⟨a, -, rfl⟩ := List.mem_map.mp h
  rfl

theorem nodup_subjects (hs : s.Indexed) : (s.subjects.map (·.1)).Nodup := by
  have hkeys : s.subjects.map (·.1) =
      s.typedefs.toList.map key ++ (s.definitions.toList.map key ++ s.procedures.toList.map key) := by
    simp only [subjects, List.map_append, List.map_map]
    rfl
  rw [hkeys]
  refine hs.typedefs.nodup_keys.append (hs.definitions.nodup_keys.append hs.procedures.nodup_keys ?_) ?_
  · intro k hdefinition hprocedure
    cases (category_of_mem_keys hdefinition).symm.trans (category_of_mem_keys hprocedure)
  · intro k htypedef hother
    rcases List.mem_append.mp hother with hdefinition | hprocedure
    · cases (category_of_mem_keys htypedef).symm.trans (category_of_mem_keys hdefinition)
    · cases (category_of_mem_keys htypedef).symm.trans (category_of_mem_keys hprocedure)

def knows (s : Store) (n : String) : Bool :=
  (s.byName? n).isSome || (Builtin.ofSpelling? n).isSome

theorem isSome_targetOf? (s : Store) (n : String) : (s.targetOf? n).isSome = s.knows n := by
  unfold targetOf? knows
  cases s.byName? n with
  | some node => rfl
  | none => exact Option.isSome_map

theorem isFound_eq (s : Store) (r : Reference) : r.isFound s.targetOf? = (!r.isLinked && s.knows r.name) := by
  rw [Reference.isFound, isSome_targetOf?]

theorem isUnknown_eq (s : Store) (r : Reference) : r.isUnknown s.targetOf? = (!r.isLinked && !s.knows r.name) := by
  rw [Reference.isUnknown, ← isSome_targetOf?, Option.not_isSome]

def unknowns (s : Store) : List (Key × String) :=
  s.subjects.flatMap fun x => ((x.2.filter (·.isUnknown s.targetOf?)).map (·.name)).eraseDups.map (x.1, ·)

theorem mem_unknowns {k : Key} {n : String} : (k, n) ∈ s.unknowns ↔
    ∃ x ∈ s.subjects, x.1 = k ∧ ∃ r ∈ x.2, r.name = n ∧ r.isLinked = false ∧ s.knows n = false := by
  simp only [unknowns, List.mem_flatMap, List.mem_map, List.mem_eraseDups, List.mem_filter, Prod.mk.injEq, isUnknown_eq,
    Bool.and_eq_true, Bool.not_eq_true']
  constructor
  · rintro ⟨x, hx, _, ⟨r, ⟨hr, hunknown⟩, rfl⟩, hk, rfl⟩
    exact ⟨x, hx, hk, r, hr, rfl, hunknown⟩
  · rintro ⟨x, hx, hk, r, hr, rfl, hunknown⟩
    exact ⟨x, hx, _, ⟨r, ⟨hr, hunknown⟩, rfl⟩, hk, rfl⟩

theorem nodup_unknowns (hs : s.Indexed) : s.unknowns.Nodup := by
  have hsubjects := List.pairwise_map.mp (nodup_subjects hs)
  refine List.nodup_flatMap.mpr ⟨fun x _ => ?_, hsubjects.imp fun {x y} hne => ?_⟩
  · exact (nodup_eraseDups _).map fun m n hmn => congrArg Prod.snd hmn
  · intro p hx hy
    obtain ⟨m, -, rfl⟩ := List.mem_map.mp hx
    obtain ⟨n, -, heq⟩ := List.mem_map.mp hy
    exact hne (congrArg Prod.fst heq).symm

theorem diagnostics_link_eq (s : Store) : s.link.2.diagnostics = s.unknowns.map fun p => unknownType p.1 p.2 := by
  rw [diagnostics_link, unknowns, List.map_flatMap]
  simp only [List.map_map]
  rfl

def allReferences (s : Store) : List Reference :=
  s.subjects.flatMap (·.2)

structure LinksTo (s t : Store) (report : LinkReport) : Prop where
  names : ∀ n, s.nameTable[n]? = (s.byName? n).map Node.key
  leads : ∀ n node, s.byName? n = some node → s.node? node.key = some node
  typedefs : Table.Corresponds (Typedef.Attached s) s.typedefs t.typedefs
  definitions : Table.Corresponds (Definition.Attached s) s.definitions t.definitions
  procedures : Table.Corresponds (Procedure.Attached s) s.procedures t.procedures
  others : t = { s with typedefs := t.typedefs, definitions := t.definitions, procedures := t.procedures }
  linked : report.linked = s.allReferences.countP fun r => !r.isLinked && s.knows r.name
  alreadyLinked : report.alreadyLinked = s.allReferences.countP (·.isLinked)
  unresolved : report.unresolved = s.allReferences.countP fun r => !r.isLinked && !s.knows r.name
  total : report.linked + report.alreadyLinked + report.unresolved = s.allReferences.length
  diagnostics : ∃ pairs : List (Key × String), pairs.Nodup ∧
    (∀ k n, (k, n) ∈ pairs ↔
      ∃ x ∈ s.subjects, x.1 = k ∧ ∃ r ∈ x.2, r.name = n ∧ r.isLinked = false ∧ s.knows n = false) ∧
    report.diagnostics = pairs.map fun (k, n) =>
      ⟨.warning, .unresolvedReference, some k, "reference to unknown type '" ++ n ++ "' left opaque"⟩

theorem linksTo_link (hs : s.Indexed) : s.LinksTo s.link.1 s.link.2 := by
  obtain ⟨hlinked, halready, hunresolved⟩ := LinkReport.counts_foldl s.targetOf? s.subjects .empty
  have hreport : s.link.2 = s.subjects.foldl (LinkReport.meet s.targetOf?) .empty := by rw [link_eq]
  rw [← hreport] at hlinked halready hunresolved
  simp only [LinkReport.empty, Nat.zero_add] at hlinked halready hunresolved
  have htotal : s.link.2.linked + s.link.2.alreadyLinked + s.link.2.unresolved = s.allReferences.length := by
    rw [hlinked, halready, hunresolved]
    exact Reference.countP_kinds s.targetOf? s.allReferences
  simp only [isFound_eq] at hlinked
  simp only [isUnknown_eq] at hunresolved
  refine ⟨getElem?_nameTable hs, fun n node => node?_of_byName?, ?_, ?_, ?_, ?_, hlinked, halready, hunresolved, htotal,
    s.unknowns, nodup_unknowns hs, fun k n => mem_unknowns, diagnostics_link_eq s⟩ <;> rw [link_eq]
  · exact Table.corresponds_map (Typedef.attached_relink s) s.typedefs
  · exact Table.corresponds_map (Definition.attached_relink s) s.definitions
  · exact Table.corresponds_map (Procedure.attached_relink s) s.procedures

def scattered : DeclarationSet :=
  ⟨[⟨"A", .pointer (.named (.unlinked "B" .empty))⟩],
    [.record .struct ⟨"B", [⟨"x", .named (.unlinked "Missing" .empty)⟩,
      ⟨"y", .array (.named (.unlinked "Missing" .empty)) 1 none⟩]⟩],
    [], [⟨"f", .named (.unlinked "unsigned long" .empty), [], none, none⟩], []⟩

theorem linksTo_link_scattered :
    let s := (scattered.stage empty).commit.1
    s.Indexed ∧ s.LinksTo s.link.1 s.link.2 ∧ s.link.2.linked = 2 ∧ s.link.2.alreadyLinked = 0 ∧
      s.link.2.unresolved = 2 ∧ s.link.2.diagnostics = [⟨.warning, .unresolvedReference, some ⟨.definedType, "B"⟩,
        "reference to unknown type 'Missing' left opaque"⟩] := by
  intro s
  have hs : s.Sound := sound_commit (sound_stage sound_empty scattered)
  have hnew : scattered.IsNewTo empty := ⟨fun a _ => Table.get?_empty (name a), fun a _ => Table.get?_empty (name a),
    fun a _ => Table.get?_empty (name a), fun a _ => Table.get?_empty (name a)⟩
  obtain ⟨htypedefs, hdefinitions, -, hprocedures, -⟩ :=
    commit_stage_fresh sound_empty (d := scattered) rfl ⟨by decide, by decide, by decide, by decide⟩ hnew
  have hsubjects : s.subjects = [(.synonym "A", [.unlinked "B" .empty]),
      (.definedType "B", [.unlinked "Missing" .empty, .unlinked "Missing" .empty]),
      (⟨.procedure, "f"⟩, [.unlinked "unsigned long" .empty])] := by
    rw [subjects, htypedefs, hdefinitions, hprocedures]
    simp [scattered, empty, Table.empty, Table.toList, subject, Declaration.key, Declaration.name, Declaration.category,
      Declaration.references, Declaration.roots, Definition.memberTypes, Definition.name, Key.synonym, Key.definedType]
  have hreferences : s.allReferences = [.unlinked "B" .empty, .unlinked "Missing" .empty, .unlinked "Missing" .empty,
      .unlinked "unsigned long" .empty] := by
    rw [allReferences, hsubjects]
    rfl
  have hdefined (n : String) : s.definitions.get? n = scattered.definitions.find? (name · == n) := by
    rw [hs.definitions.get?_eq, hdefinitions]
    rfl
  have hsynonym (n : String) : s.typedefs.get? n = scattered.typedefs.find? (name · == n) := by
    rw [hs.typedefs.get?_eq, htypedefs]
    rfl
  have hstruct : s.knows "B" = true := by
    rw [knows, byName?, hdefined]
    rfl
  have hbuiltin : s.knows "unsigned long" = true := by
    rw [knows, byName?, hdefined, hsynonym]
    decide +kernel
  have hmissing : s.knows "Missing" = false := by
    rw [knows, byName?, hdefined, hsynonym]
    decide +kernel
  have hlinks := linksTo_link hs.toIndexed
  obtain ⟨pairs, hnodup, hpairs, hdiagnostics⟩ := hlinks.diagnostics
  have hsingle : pairs = [(.definedType "B", "Missing")] := by
    refine List.perm_singleton.mp ((List.perm_ext_iff_of_nodup hnodup (List.nodup_singleton _)).mpr fun p => ?_)
    obtain ⟨k, n⟩ := p
    rw [hpairs, hsubjects, List.mem_singleton]
    constructor
    · rintro ⟨x, hx, rfl, r, hr, rfl, -, hn⟩
      simp only [List.mem_cons, List.not_mem_nil, or_false] at hx
      rcases hx with rfl | rfl | rfl
      · obtain rfl := List.mem_singleton.mp hr
        cases hstruct.symm.trans hn
      · obtain rfl : r = .unlinked "Missing" .empty := by simpa using hr
        rfl
      · obtain rfl := List.mem_singleton.mp hr
        cases hbuiltin.symm.trans hn
    · rintro heq
      cases heq
      exact ⟨_, .tail _ (.head _), rfl, _, .head _, rfl, rfl, hmissing⟩
  refine ⟨hs.toIndexed, hlinks, hlinks.linked.trans ?_, hlinks.alreadyLinked.trans ?_, hlinks.unresolved.trans ?_,
    hdiagnostics.trans (by rw [hsingle]; rfl)⟩ <;> rw [hreferences]
  · simp [Reference.unlinked, Reference.isLinked, hstruct, hbuiltin, hmissing]
  · rfl
  · simp [Reference.unlinked, Reference.isLinked, hstruct, hbuiltin, hmissing]

end Store

end HeaderBinding
