import HeaderBinding.Proofs.Declaration.Data
import HeaderBinding.Proofs.Expr.Grammar
import HeaderBinding.Proofs.Resolve.Idempotence
import HeaderBinding.Proofs.Store.Hoist
import HeaderBinding.Proofs.Store.Loading

namespace HeaderBinding

open Declaration (name references)

namespace Store

section

variable {α : Type} [DeclarationData α]

def isWritable (s : Store) (a : α) : Bool :=
  (s.entryJson a).isFinite

def restored (s : Store) (a : α) : α :=
  Declaration.mapRoots (fun t => (t.hoist s).unlinked) a

variable [LawfulData α] (s : Store) (a : α)

theorem name_restored : name (s.restored a) = name a :=
  LawfulDeclaration.name_mapRoots _ a

theorem sameContent_restored : Declaration.sameContent a (s.restored a) = true :=
  LawfulData.sameContent_mapRoots (fun t => (t.hoist s).shape_unlinked.trans (t.shape_hoist s)) a

theorem isNamed_restored {a : α} (h : Declaration.IsNamed a) : Declaration.IsNamed (s.restored a) := by
  obtain ⟨hname, hreferences⟩ := h
  refine ⟨s.name_restored a ▸ hname, fun r hr => ?_⟩
  rw [references, restored, LawfulDeclaration.roots_mapRoots] at hr
  obtain ⟨t', ht', hr⟩ := List.mem_flatMap.mp hr
  obtain ⟨t, ht, rfl⟩ := List.mem_map.mp ht'
  have hnamed : t.Named := fun r hr => hreferences r (List.mem_flatMap.mpr ⟨t, ht, hr⟩)
  exact (hnamed.hoist s).unlinked r hr

end

theorem isWritable_constant (s : Store) (d : Constant) : s.isWritable d = true ↔ ∀ v ∈ d.value,
    (∀ x, v.literal = .single x → x.isFinite = true) ∧ ∀ x, v.literal = .double x → x.isFinite = true := by
  have hliteral (l : Literal) : l.contentJson.isFinite = true ↔
      (∀ x, l = .single x → x.isFinite = true) ∧ ∀ x, l = .double x → x.isFinite = true := by
    cases l <;> simp [Literal.contentJson, Json.isFinite]
  have hjson : s.entryJson d = d.toJson := rfl
  rw [isWritable, hjson, Constant.toJson]
  simp [Json.isFinite, Json.isFiniteEntries, isFiniteEntries_optional, TypedLiteral.toJson, Literal.toJson,
    LiteralType.toJson, hliteral]

end Store

namespace Snapshot

variable {α : Type} [DeclarationData α] [LawfulData α] {s : Store} {k : Json}

theorem readEntry_of_writable {a : α} (ha : Declaration.IsNamed a) (hk : (s.entryJson a).ReadsAs k)
    (hw : s.isWritable a = true) : readEntry α k.sorted = .ok (s.restored a) := by
  have hread := (LawfulData.decodes (Declaration.mapRoots (NativeType.hoist s) a) hk).ok hw
  rw [LawfulData.mapRoots_mapRoots] at hread
  obtain ⟨hname, hreferences⟩ := s.isNamed_restored ha
  have hname' : ¬(name (s.restored a)).isEmpty = true := by simpa using hname
  have hreferences' : ¬(references (s.restored a)).any (·.name.isEmpty) = true := by simpa using hreferences
  have hdecoded : DeclarationData.ofJson .tree k.sorted = .ok (s.restored a) := hread
  rw [readEntry, hdecoded]
  dsimp only
  rw [if_neg hname', if_neg hreferences']

theorem readEntry_of_not_writable {a : α} (hk : (s.entryJson a).ReadsAs k) (hw : s.isWritable a = false) :
    ∃ fault, readEntry α k.sorted = .error fault := by
  obtain ⟨e, he⟩ := (LawfulData.decodes (Declaration.mapRoots (NativeType.hoist s) a) hk).error
    (ne_true_of_eq_false hw)
  exact ⟨.undecodable e, by rw [readEntry, he]⟩

theorem subjectOf?_of_readsAs {a : α} (ha : Declaration.IsNamed a) (hk : (s.entryJson a).ReadsAs k) :
    subjectOf? α k.sorted = some (Declaration.key a) := by
  have hname := LawfulData.get_name (Declaration.mapRoots (NativeType.hoist s) a) hk
  rw [LawfulDeclaration.name_mapRoots] at hname
  have hne : ¬(name a).isEmpty = true := by simpa using ha.1
  rw [subjectOf?, hname]
  exact if_neg hne

theorem readEntries_entries {as : List α} (has : ∀ a ∈ as, Declaration.IsNamed a) {ks : List Json}
    (h : List.Forall₂ Json.ReadsAs (as.map s.entryJson) ks) (index : Nat) :
    (readEntries α index (Json.sortedItems ks)).1 = (as.filter s.isWritable).map s.restored ∧
      (readEntries α index (Json.sortedItems ks)).2.map (fun d => (d.kind, d.subject)) =
        (as.filter (!s.isWritable ·)).map fun a => (.malformedEntry, some (Declaration.key a)) := by
  rw [List.forall₂_map_left_iff] at h
  induction h generalizing index with
  | nil => exact ⟨rfl, rfl⟩
  | @cons a k as ks hk _ ih =>
    obtain ⟨ha, has⟩ := List.forall_mem_cons.mp has
    obtain ⟨hread, hreported⟩ := ih has (index + 1)
    rw [Json.sortedItems, readEntries]
    cases hw : s.isWritable a with
    | true =>
      rw [readEntry_of_writable ha hk hw, List.filter_cons_of_pos hw, List.filter_cons_of_neg (by simp [hw])]
      exact ⟨congrArg (List.cons _) hread, hreported⟩
    | false =>
      obtain ⟨fault, hfault⟩ := readEntry_of_not_writable hk hw
      rw [hfault, List.filter_cons_of_neg (by simp [hw]), List.filter_cons_of_pos (by simp [hw])]
      refine ⟨hread, ?_⟩
      rw [List.map_cons, List.map_cons]
      exact congrArg₂ List.cons (congrArg (Prod.mk _) (subjectOf?_of_readsAs ha hk)) hreported

end Snapshot

namespace Store

theorem commit_stage_empty {d : DeclarationSet} (hd : d.Distinct) :
    let t := (d.stage (empty.setFastLoad true)).commit
    t.1.typedefs.toList = d.typedefs ∧ t.1.definitions.toList = d.definitions ∧
      t.1.constants.toList = d.constants ∧ t.1.procedures.toList = d.procedures ∧ t.2 = ⟨d.size, 0, []⟩ :=
  commit_stage_fresh (sound_setFastLoad sound_empty true) rfl hd
    ⟨fun a _ => Table.get?_empty (name a), fun a _ => Table.get?_empty (name a),
      fun a _ => Table.get?_empty (name a), fun a _ => Table.get?_empty (name a)⟩

def unwritable (s : Store) : List Key :=
  (s.typedefs.toList.filter (!s.isWritable ·)).map Declaration.key ++
    (s.definitions.toList.filter (!s.isWritable ·)).map Declaration.key ++
    (s.constants.toList.filter (!s.isWritable ·)).map Declaration.key ++
    (s.procedures.toList.filter (!s.isWritable ·)).map Declaration.key

structure RestoredAs (s t : Store) : Prop where
  typedefs : List.Forall₂ (fun d d' => Declaration.sameContent d d' = true)
    (s.typedefs.toList.filter s.isWritable) t.typedefs.toList
  definitions : List.Forall₂ (fun d d' => Declaration.sameContent d d' = true)
    (s.definitions.toList.filter s.isWritable) t.definitions.toList
  constants : List.Forall₂ (fun d d' => Declaration.sameContent d d' = true)
    (s.constants.toList.filter s.isWritable) t.constants.toList
  procedures : List.Forall₂ (fun d d' => Declaration.sameContent d d' = true)
    (s.procedures.toList.filter s.isWritable) t.procedures.toList

theorem forall₂_restored {α : Type} [DeclarationData α] [LawfulData α] (s : Store) (as : List α) :
    List.Forall₂ (fun a b => Declaration.sameContent a b = true) as (as.map s.restored) := by
  rw [List.forall₂_map_right_iff, List.forall₂_same]
  exact fun a _ => s.sameContent_restored a

theorem nodup_restored {α : Type} [DeclarationData α] [LawfulData α] (s : Store) {as : List α}
    (h : (as.map name).Nodup) (p : α → Bool) : (((as.filter p).map s.restored).map name).Nodup := by
  rw [List.map_map]
  have hnames : (as.filter p).map (name ∘ s.restored) = (as.filter p).map name :=
    List.map_congr_left fun a _ => s.name_restored a
  rw [hnames]
  exact h.sublist (List.filter_sublist.map name)

theorem parts_snapshot {s : Store} {k : Json} (h : s.snapshot.ReadsAs k) : ∃ kt kd kc kp,
    Snapshot.parts k.sorted = .ok ⟨Json.sortedItems kt, Json.sortedItems kd, Json.sortedItems kc, Json.sortedItems kp⟩ ∧
      List.Forall₂ Json.ReadsAs (s.typedefs.toList.map s.entryJson) kt ∧
      List.Forall₂ Json.ReadsAs (s.definitions.toList.map s.entryJson) kd ∧
      List.Forall₂ Json.ReadsAs (s.constants.toList.map s.entryJson) kc ∧
      List.Forall₂ Json.ReadsAs (s.procedures.toList.map s.entryJson) kp := by
  simp only [snapshot, Json.readsAs_object, Json.entriesReadAs_cons, Json.entriesReadAs_nil,
    Json.readsAs_integer, Json.readsAs_array] at h
  obtain ⟨_, rfl, _, _, rfl, rfl, _, _, rfl, ⟨kt, rfl, ht⟩, _, _, rfl, ⟨kd, rfl, hd⟩, _, _, rfl, ⟨kc, rfl, hc⟩,
    _, _, rfl, ⟨kp, rfl, hp⟩, rfl⟩ := h
  exact ⟨kt, kd, kc, kp, rfl, ht, hd, hc, hp⟩

def restoredSet (s : Store) : DeclarationSet where
  typedefs := (s.typedefs.toList.filter s.isWritable).map s.restored
  definitions := (s.definitions.toList.filter s.isWritable).map s.restored
  constants := (s.constants.toList.filter s.isWritable).map s.restored
  procedures := (s.procedures.toList.filter s.isWritable).map s.restored
  diagnostics := []

def reloaded (s : Store) : Store :=
  (s.restoredSet.stage (empty.setFastLoad true)).commit.1.setFastLoad false

theorem WellNamed.commit_restoredSet {s : Store} (hs : s.WellNamed) :
    s.reloaded.Sound ∧ s.reloaded.typedefs.toList = s.restoredSet.typedefs ∧
      s.reloaded.definitions.toList = s.restoredSet.definitions ∧
      s.reloaded.constants.toList = s.restoredSet.constants ∧
      s.reloaded.procedures.toList = s.restoredSet.procedures ∧
      (s.restoredSet.stage (empty.setFastLoad true)).commit.2.diagnostics = [] := by
  have hdistinct : s.restoredSet.Distinct :=
    ⟨s.nodup_restored hs.typedefs.nodup s.isWritable, s.nodup_restored hs.definitions.nodup s.isWritable,
      s.nodup_restored hs.constants.nodup s.isWritable, s.nodup_restored hs.procedures.nodup s.isWritable⟩
  obtain ⟨ht, hd, hc, hp, hreport⟩ := commit_stage_empty hdistinct
  have htables := sameEntries_setFastLoad (.refl (s.restoredSet.stage (empty.setFastLoad true)).commit.1) false
  have hsound := sound_commit (sound_stage (sound_setFastLoad sound_empty true) s.restoredSet)
  refine ⟨sound_setFastLoad hsound false, htables.typedefs.trans ht, htables.definitions.trans hd,
    htables.constants.trans hc, htables.procedures.trans hp, ?_⟩
  rw [hreport]

theorem WellNamed.deserialize_reloaded {s : Store} (hs : s.WellNamed) (hread : s.snapshot.ReadsBack) :
    ∃ ds, deserialize s.serialize = .ok (s.reloaded, ds) ∧
      ds.map (fun d => (d.kind, d.subject)) = s.unwritable.map fun k => (.malformedEntry, some k) := by
  obtain ⟨k, hk, hparse⟩ := hread
  obtain ⟨kt, kd, kc, kp, hparts, ht, hd, hc, hp⟩ := parts_snapshot hk
  obtain ⟨hreadt, hreportt⟩ := Snapshot.readEntries_entries hs.typedefs.named ht 0
  obtain ⟨hreadd, hreportd⟩ := Snapshot.readEntries_entries hs.definitions.named hd 0
  obtain ⟨hreadc, hreportc⟩ := Snapshot.readEntries_entries hs.constants.named hc 0
  obtain ⟨hreadp, hreportp⟩ := Snapshot.readEntries_entries hs.procedures.named hp 0
  obtain ⟨-, -, -, -, -, hreport⟩ := hs.commit_restoredSet
  let p : Snapshot.Parts := ⟨Json.sortedItems kt, Json.sortedItems kd, Json.sortedItems kc, Json.sortedItems kp⟩
  have hsnapshot : Snapshot.IsSnapshot s.serialize p := ⟨k.sorted, hparse, hparts⟩
  have hstage (t : Store) : p.read.stage t = s.restoredSet.stage t := by
    unfold DeclarationSet.stage Snapshot.Parts.read
    rw [hreadt, hreadd, hreadc, hreadp]
    rfl
  have hloaded : empty.loaded p = (s.reloaded, p.read.diagnostics) := by
    rw [loaded, hstage, hreport, List.append_nil]
    rfl
  refine ⟨_, (load_of_isSnapshot hsnapshot .empty).trans (congrArg Except.ok hloaded), ?_⟩
  simp only [p, Snapshot.Parts.read, unwritable, List.map_append, List.map_map, Function.comp_def, hreportt, hreportd,
    hreportc, hreportp]

theorem deserialize_serialize {ops : List Operation} (hops : ∀ e, Operation.add e ∈ ops → e.IsNamed)
    (runs : List ResolveOptions) (hread : ((empty.run ops).1.resolveAll runs).snapshot.ReadsBack) :
    let s := (empty.run ops).1.resolveAll runs
    ∃ t ds, deserialize s.serialize = .ok (t, ds) ∧ s.RestoredAs t ∧
      ds.map (fun d => (d.kind, d.subject)) = s.unwritable.map fun k => (.malformedEntry, some k) := by
  intro s
  have hs : s.WellNamed := wellNamed_resolveAll hops runs
  obtain ⟨ds, hload, hreported⟩ := hs.deserialize_reloaded hread
  obtain ⟨-, ht, hd, hc, hp, -⟩ := hs.commit_restoredSet
  exact ⟨s.reloaded, ds, hload, ⟨ht ▸ s.forall₂_restored _, hd ▸ s.forall₂_restored _, hc ▸ s.forall₂_restored _,
    hp ▸ s.forall₂_restored _⟩, hreported⟩

theorem evaluateText_overflow (ctx : EvalContext) : evaluateText ctx "1e308 * 10" = .ok (.ofDouble (1 / 0)) := by
  have htokens : tokenize "1e308 * 10" = .ok [.floating 1e308 false, .punct .star, .integer ⟨10, .int32, false⟩] := by
    decide +kernel
  have hleft := @Expr.Spells.floating ctx.isType 1e308 false [.punct .star, .integer ⟨10, .int32, false⟩]
  have hright := @Expr.Spells.integer ctx.isType ⟨10, .int32, false⟩ []
  have hspells := Expr.Spells.binary .mul (hleft.loosen (by decide)) (hright.loosen (by decide))
  have hparse := Expr.parse_of_spells (hspells.loosen (Nat.zero_le _))
  have hevaluate : (Expr.binary .mul (.floating 1e308 false) (.integer ⟨10, .int32, false⟩)).evaluate
      ⟨fun _ => .unknown, fun _ => .noLiteral⟩ = .ok (.ofDouble (1 / 0)) := by
    decide +kernel
  rw [evaluateText, htokens]
  change (Expr.parse ctx.isType _ >>= fun e => e.evaluate ctx) = _
  rw [hparse]
  exact hevaluate

theorem deserialize_serialize_of_overflow :
    let answer : Constant := ⟨"ANSWER", "42", .preprocessor, some ⟨.int 42, .int32⟩⟩
    let big : Constant := ⟨"BIG", "1e308 * 10", .preprocessor, none⟩
    let ops : List Operation := [.setFastLoad true, .add (.constant answer), .add (.constant big), .commit]
    let s := (empty.run ops).1.resolveAll [.standard]
    (∀ e, Operation.add e ∈ ops → e.IsNamed) ∧ s.snapshot.ReadsBack ∧
      ∃ t ds, deserialize s.serialize = .ok (t, ds) ∧ s.RestoredAs t ∧
        ds.map (fun d => (d.kind, d.subject)) = [(.malformedEntry, some ⟨.constant, "BIG"⟩)] := by
  intro answer big ops s
  have hops : ∀ e, Operation.add e ∈ ops → e.IsNamed := by
    intro e he
    have he : e = .constant answer ∨ e = .constant big := by simpa [ops] using he
    rcases he with rfl | rfl <;> exact ⟨by decide, nofun⟩
  let d : DeclarationSet := ⟨[], [], [answer, big], [], []⟩
  obtain ⟨htypedefs, hdefinitions, hconstants, hprocedures, -⟩ :=
    commit_stage_empty (d := d) ⟨List.nodup_nil, List.nodup_nil, by decide, List.nodup_nil⟩
  have hrun : (empty.run ops).1 = (d.stage (empty.setFastLoad true)).commit.1 := rfl
  generalize (d.stage (empty.setFastLoad true)).commit.1 = t at htypedefs hdefinitions hconstants hprocedures hrun
  have hitems : t.link.1.items = [answer.item, big.item] := by
    rw [items_link, items, htypedefs, hdefinitions, hconstants]
    rfl
  have hd : (t.link.1.items.map (·.name)).Nodup := by
    rw [hitems]
    decide
  have hvalues : ∀ i ∈ [answer.item, big.item], t.link.1.valueOf i.name = i.value := by
    intro i hi
    exact value_eq hd (hitems ▸ hi)
  let infinite := TypedLiteral.ofDouble (1 / 0)
  let f := t.link.1.valueOf.set "BIG" infinite
  have hsolution : t.link.1.Solution f := by
    have hrules : t.link.1.rules = [answer.item.bare, big.item.bare] := by
      rw [rules, hitems]
      rfl
    have hbig : big.item.bare ∈ t.link.1.rules := by simp [hrules]
    constructor
    · exact .step .refl hbig (hvalues big.item (by simp)) (evaluateText_overflow _)
    · intro i hi hnone
      rw [hrules] at hi
      rcases List.mem_pair.mp hi with rfl | rfl
      · have hanswer : f "ANSWER" = answer.value := hvalues answer.item (by simp)
        cases hanswer.symm.trans hnone
      · cases hnone
  have hresolved : s = t.link.1.assign f := by
    have hd : (t.items.map (·.name)).Nodup := items_link t ▸ hd
    have hstep : s = (t.resolve .standard).1 := congrArg (fun t => (resolve .standard t).1) hrun
    exact hstep.trans (resolve_solution hd hsolution true)
  have hlists : s.typedefs.toList = [] ∧ s.definitions.toList = [] ∧
      s.constants.toList = [answer, { big with value := some infinite }] ∧ s.procedures.toList = [] := by
    have hanswer : f "ANSWER" = answer.value := hvalues answer.item (by simp)
    rw [hresolved, assign, link_eq]
    simp only [Table.toList_map, htypedefs, hdefinitions, hconstants, hprocedures]
    refine ⟨rfl, rfl, ?_, rfl⟩
    simp [Constant.assign, d, answer, big, hanswer, f, Values.set_self]
  have hsnapshot : s.snapshot = .object [("version", .integer 1), ("typedefs", .array []), ("defined_types", .array []),
      ("constants", .array [answer.toJson, ({ big with value := some infinite } : Constant).toJson]),
      ("procedures", .array [])] := by
    obtain ⟨ht, hd, hc, hp⟩ := hlists
    rw [snapshot, ht, hd, hc, hp]
    rfl
  have hinfinite : Float.isFinite (1 / 0) = false := by decide
  have hread : s.snapshot.ReadsBack := by
    rw [hsnapshot]
    apply Json.readsBack_of_isLegible
    · simp [Json.IsLegible, Json.EntriesLegible, Json.AllLegible, Constant.toJson, optional, TypedLiteral.toJson,
        Literal.toJson, Literal.contentJson, LiteralType.toJson, answer, infinite, TypedLiteral.ofDouble, hinfinite]
    · decide
  have hunwritable : s.unwritable = [⟨.constant, "BIG"⟩] := by
    obtain ⟨ht, hd, hc, hp⟩ := hlists
    have hanswer : s.isWritable answer = true := rfl
    have hbig : s.isWritable { big with value := some infinite } = false := by
      rw [← Bool.not_eq_true, isWritable_constant]
      intro h
      exact absurd ((h infinite rfl).2 _ rfl) (hinfinite ▸ Bool.false_ne_true)
    rw [unwritable, ht, hd, hc, hp]
    simp [hanswer, hbig]
    rfl
  refine ⟨hops, hread, ?_⟩
  obtain ⟨u, ds, hload, hrestored, hreported⟩ := deserialize_serialize hops [.standard] hread
  rw [hunwritable] at hreported
  exact ⟨u, ds, hload, hrestored, hreported⟩

end Store

end HeaderBinding
