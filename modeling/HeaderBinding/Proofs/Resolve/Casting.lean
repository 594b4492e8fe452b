import HeaderBinding.Proofs.Graph.Chain
import HeaderBinding.Proofs.Resolve.Dangling
import HeaderBinding.Proofs.Resolve.Rearranged

namespace HeaderBinding

open Declaration (name)

theorem Table.Indexed.getElem?_enter {α : Type} [Declaration α] {t : Table α} (h : t.Indexed) (s : Store)
    (node : α → Node) (casts : Std.HashMap String CastTarget) (n : String) :
    (Store.castTable.enter s node t.toList casts)[n]? =
      ((t.get? n).map fun a => (node a).castTarget s).or casts[n]? := by
  have hlist : ∀ (entries : List α) (casts : Std.HashMap String CastTarget), (entries.map name).Nodup →
      (Store.castTable.enter s node entries casts)[n]? =
        ((entries.find? (name · == n)).map fun a => (node a).castTarget s).or casts[n]? := by
    intro entries
    induction entries with
    | nil => exact fun _ _ => rfl
    | cons a rest ih =>
      intro casts hnodup
      obtain ⟨hfresh, hrest⟩ := List.nodup_cons.mp hnodup
      have hentered := ih (casts.insert (name a) ((node a).castTarget s)) hrest
      unfold Store.castTable.enter at hentered ⊢
      rw [List.foldl_cons, hentered, Std.HashMap.getElem?_insert, List.find?_cons]
      by_cases hname : name a = n
      · have hmissing : rest.find? (name · == n) = none := by
          refine List.find?_eq_none.mpr fun b hb hb' => hfresh ?_
          rw [hname, ← eq_of_beq hb']
          exact List.mem_map_of_mem hb
        simp [hname, hmissing]
      · have hother : (name a == n) = false := beq_false_of_ne hname
        simp [hother]
  rw [hlist _ _ h.nodup, h.get?_eq]

variable {s t : Store}

theorem Store.castTarget_of_none {n : String} (h : s.byName? n = none) : s.castTarget n = .ofSpelling n := by
  rw [castTarget, h]

theorem Store.castTarget_of_some {n : String} {node : Node} (h : s.byName? n = some node) :
    s.castTarget n = node.castTarget s := by
  rw [castTarget, h]

theorem Store.among_castTable (hs : s.Indexed) (n : String) : CastTarget.among s.castTable n = s.castTarget n := by
  unfold CastTarget.among castTable castTarget byName?
  rw [hs.definitions.getElem?_enter, hs.typedefs.getElem?_enter, Std.HashMap.getElem?_empty]
  cases s.definitions.get? n with
  | some d => rfl
  | none => cases s.typedefs.get? n <;> rfl

inductive Denoted.Casts : Denoted → CastTarget → Prop where
  | builtin (b : Builtin) : Casts (.builtin b) (.ofBuiltin b)
  | enumeration (e : Enumeration) : Casts (.definition (.enumeration e)) (.integer .int32)
  | writtenOut (e : Enumeration) : Casts (.structural (.enumeration e)) (.integer .int32)
  | record (kind : RecordKind) (body : Record NativeType) : Casts (.definition (.record kind body)) .noLiteral
  | structural {x : NativeType} : x.enumeration? = none → Casts (.structural x) .noLiteral
  | unresolved (n : String) : Casts (.unresolved n) .noLiteral

theorem Denoted.Casts.eq {d : Denoted} {target target' : CastTarget} (h : d.Casts target) (h' : d.Casts target') :
    target = target' := by
  cases h with
  | writtenOut e =>
    cases h' with
    | writtenOut _ => rfl
    | structural hnone => cases hnone
  | structural hnone =>
    cases h' with
    | writtenOut e => cases hnone
    | structural _ => rfl
  | _ =>
    cases h'
    rfl

theorem casts_castTarget_synonym {d : Typedef} (hcycle : ∀ n, (d.target.canonical s).denoted ≠ .cycle n) :
    (d.target.canonical s).denoted.Casts ((Node.synonym d).castTarget s) := by
  rw [Node.castTarget]
  cases hdenoted : (d.target.canonical s).denoted with
  | builtin b => exact .builtin b
  | definition d =>
    cases d with
    | enumeration e => exact .enumeration e
    | record kind body => exact .record kind body
  | structural x =>
    cases x with
    | enumeration e => exact .writtenOut e
    | _ => exact .structural rfl
  | unresolved n => exact .unresolved n
  | cycle n => exact absurd hdenoted (hcycle n)

theorem CastTarget.ofBuiltin_ne_notAType (b : Builtin) : ofBuiltin b ≠ .notAType := by
  obtain ⟨kind, isUnsigned⟩ := b
  cases kind <;> cases isUnsigned <;> nofun

theorem Node.castTarget_ne_notAType (s : Store) (node : Node) : node.castTarget s ≠ .notAType := by
  unfold castTarget
  split
  · nofun
  · nofun
  · split
    · exact CastTarget.ofBuiltin_ne_notAType _
    · nofun
    · nofun
    · nofun

theorem Store.fst_linkReference (s : Store) (n : String) (qualifiers : Qualifiers) (tally : LinkTally) :
    (s.linkReference (.unlinked n qualifiers) tally).1 = ⟨n, s.targetOf? n, qualifiers⟩ := by
  unfold linkReference Reference.unlinked Reference.isLinked
  dsimp only
  cases s.targetOf? n <;> rfl

theorem Store.castTarget_eq_notAType_iff {n : String} : s.castTarget n = .notAType ↔ s.targetOf? n = none := by
  unfold targetOf?
  cases hname : s.byName? n with
  | none =>
    rw [castTarget_of_none hname, CastTarget.ofSpelling]
    cases Builtin.ofSpelling? n with
    | none => exact iff_of_true rfl rfl
    | some b => exact iff_of_false (CastTarget.ofBuiltin_ne_notAType b) nofun
  | some node =>
    rw [castTarget_of_some hname]
    exact iff_of_false (node.castTarget_ne_notAType s) nofun

theorem Store.casts_castTarget {r : Reference} (htarget : r.target = s.targetOf? r.name) (hlinked : r.target ≠ none)
    (hcycle : ∀ n, ((NativeType.named r).canonical s).denoted ≠ .cycle n) :
    ((NativeType.named r).canonical s).denoted.Casts (s.castTarget r.name) := by
  have hnothing (k : Key) : Seen.nothing.has k = false := rfl
  cases hname : s.byName? r.name with
  | none =>
    rw [targetOf?, hname] at htarget
    cases hspelled : Builtin.ofSpelling? r.name with
    | none => exact absurd (htarget.trans (by rw [hspelled]; rfl)) hlinked
    | some b =>
      have hbuiltin : r.target = some (.builtin b) := htarget.trans (by rw [hspelled]; rfl)
      rw [castTarget_of_none hname, CastTarget.ofSpelling, hspelled, NativeType.canonical,
        (Leads.spelled .nothing hbuiltin).eq]
      exact .builtin b
  | some node =>
    rw [targetOf?, hname] at htarget
    have hnode := node?_of_byName? hname
    cases node with
    | definition d =>
      rw [NativeType.canonical, (Leads.definition htarget (hnothing _) hnode).eq, castTarget_of_some hname]
      cases d with
      | record kind body => exact .record kind body
      | enumeration e => exact .enumeration e
    | synonym d =>
      have hfollow : s.follow? r = some (.synonym d) := follow?_eq_some.mpr ⟨_, htarget, hnode⟩
      have hdenoted := congrArg Canonical.denoted (NativeType.canonical_named_typedef hfollow hcycle)
      rw [castTarget_of_some hname]
      rw [hdenoted] at hcycle ⊢
      exact casts_castTarget_synonym hcycle

theorem Store.castTarget_link (hs : s.Indexed) (n : String) (qualifiers : Qualifiers) (tally : LinkTally) :
    let t := s.link.1
    let r := (s.linkReference (.unlinked n qualifiers) tally).1
    CastTarget.among t.castTable n = t.castTarget n ∧
      (t.castTarget n = .notAType ↔ r.target = none) ∧
      (r.target ≠ none → (∀ m, ((NativeType.named r).canonical t).denoted ≠ .cycle m) →
        ((NativeType.named r).canonical t).denoted.Casts (t.castTarget n)) := by
  intro t r
  have hr : r = ⟨n, t.targetOf? n, qualifiers⟩ := by
    rw [targetOf?_link]
    exact fst_linkReference s n qualifiers tally
  refine ⟨among_castTable hs.link n, ?_, ?_⟩
  · rw [castTarget_eq_notAType_iff, hr]
  · rw [hr]
    exact casts_castTarget rfl

def Store.shadowed : Store :=
  let typedefs : List Typedef :=
    [⟨"WORD", .named (.unlinked "unsigned  short" .empty)⟩, ⟨"W", .named (.unlinked "WORD" .const)⟩,
      ⟨"E", .builtin ⟨.double, false⟩⟩]
  let definitions : List Definition := [.enumeration ⟨"E", []⟩]
  { Store.empty with
    typedefs := ⟨typedefs.toArray, Table.indexOf typedefs⟩
    definitions := ⟨definitions.toArray, Table.indexOf definitions⟩ }

theorem Store.indexed_shadowed : shadowed.Indexed :=
  ⟨Table.indexed_indexOf _ (by decide), Table.indexed_indexOf _ (by decide), Table.indexed_empty, Table.indexed_empty⟩

theorem Store.targetOf?_shadowed :
    shadowed.targetOf? "W" = some (.declaration (.synonym "W")) ∧
      shadowed.targetOf? "WORD" = some (.declaration (.synonym "WORD")) ∧
      shadowed.targetOf? "E" = some (.declaration (.definedType "E")) ∧
      shadowed.targetOf? "unsigned  short" = some (.builtin ⟨.int16, true⟩) ∧
      shadowed.targetOf? "Missing" = none := by
  have hspelled : Builtin.ofSpelling? "unsigned  short" = some ⟨.int16, true⟩ := by decide +kernel
  have hmissing : Builtin.ofSpelling? "Missing" = none := by decide +kernel
  simp only [targetOf?, byName?, indexed_shadowed.definitions.get?_eq, indexed_shadowed.typedefs.get?_eq]
  refine ⟨rfl, rfl, rfl, ?_, ?_⟩
  · rw [hspelled]
    rfl
  · rw [hmissing]
    rfl

theorem Store.node?_link_typedef {n m : String} {qualifiers : Qualifiers} {target : Target}
    (hm : s.targetOf? m = some target) (hd : s.typedefs.get? n = some ⟨n, .named (.unlinked m qualifiers)⟩) :
    s.link.1.node? (.synonym n) = some (.synonym ⟨n, .named ⟨m, some target, qualifiers⟩⟩) := by
  have ht : s.link.1.typedefs = s.typedefs.map (relink s.targetOf?) := congrArg (fun x => x.1.typedefs) (link_eq s)
  have hrelink : (Reference.unlinked m qualifiers).linkedBy s.targetOf? = ⟨m, some target, qualifiers⟩ := by
    simp [Reference.linkedBy, Reference.unlinked, Reference.isLinked, hm]
  rw [node?, ht]
  dsimp only [Key.synonym]
  rw [Table.get?_map (name_relink _), hd, ← hrelink]
  rfl

theorem Store.denoted_shadowed_typedef :
    ((NativeType.named ⟨"W", shadowed.targetOf? "W", .empty⟩).canonical shadowed.link.1).denoted =
      .builtin ⟨.int16, true⟩ := by
  obtain ⟨hw, hword, -, hspelled, -⟩ := targetOf?_shadowed
  have htypedefs := indexed_shadowed.typedefs.get?_eq
  have hadded : (Seen.nothing.add (.synonym "W")).has (.synonym "WORD") = false := by decide +kernel
  have hleads : Leads shadowed.link.1 .nothing (.named ⟨"W", shadowed.targetOf? "W", .empty⟩) _ :=
    .typedef hw rfl (node?_link_typedef hword (htypedefs "W"))
      (.typedef rfl hadded (node?_link_typedef hspelled (htypedefs "WORD")) (.spelled _ rfl))
  exact congrArg Canonical.denoted hleads.eq

theorem Store.denoted_shadowed_enumeration :
    ((NativeType.named ⟨"E", shadowed.targetOf? "E", .empty⟩).canonical shadowed.link.1).denoted =
      .definition (.enumeration ⟨"E", []⟩) := by
  obtain ⟨-, -, he, -, -⟩ := targetOf?_shadowed
  have hnode : shadowed.link.1.node? (.definedType "E") = some (.definition (.enumeration ⟨"E", []⟩)) := by
    have ht : shadowed.link.1.definitions = shadowed.definitions.map (relink shadowed.targetOf?) :=
      congrArg (fun x => x.1.definitions) (link_eq shadowed)
    rw [node?, ht]
    dsimp only [Key.definedType]
    rw [Table.get?_map (name_relink _), indexed_shadowed.definitions.get?_eq]
    rfl
  exact congrArg Canonical.denoted (Leads.definition he rfl hnode).eq

theorem Store.castTarget_link_shadowed :
    let t := shadowed.link.1
    shadowed.Indexed ∧ t.castTarget "W" = .integer .uint16 ∧ t.castTarget "E" = .integer .int32 ∧
      t.castTarget "Missing" = .notAType := by
  intro t
  have hlinked := fun n => castTarget_link indexed_shadowed n .empty ⟨0, 0, []⟩
  simp only [fst_linkReference] at hlinked
  obtain ⟨hw, -, he, -, hmissing⟩ := targetOf?_shadowed
  refine ⟨indexed_shadowed, ?_, ?_, (hlinked "Missing").2.1.mpr hmissing⟩
  · have hcasts := (hlinked "W").2.2 (by simp [hw])
    rw [denoted_shadowed_typedef] at hcasts
    exact (hcasts fun _ => Denoted.noConfusion).eq (.builtin _)
  · have hcasts := (hlinked "E").2.2 (by simp [he])
    rw [denoted_shadowed_enumeration] at hcasts
    exact (hcasts fun _ => Denoted.noConfusion).eq (.enumeration _)

end HeaderBinding
