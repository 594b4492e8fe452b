import HeaderBinding.Proofs.Convert.Converted
import HeaderBinding.Proofs.Emission.Termination
import HeaderBinding.Proofs.Native.Equivalence
import HeaderBinding.Proofs.Resolve.Accounting
import HeaderBinding.Proofs.Graph.Image
import HeaderBinding.Proofs.Resolve.Image
import HeaderBinding.Proofs.Store.Reloaded

namespace HeaderBinding

open Declaration (IsNamed)

namespace Store

variable {s t : Store} {o : EmitOptions} {limit : Option Nat}

structure Reloadable (o : EmitOptions) (limit : Option Nat) (s : Store) : Prop where
  readsBack : s.snapshot.ReadsBack
  writable : s.unwritable = []
  linked : s.IsLinked
  copies : ∀ x ∈ s.roots, ∀ y ∈ x.visit, s.holds y = true → s.IsCopy y
  coherent : Coherent s.items
  valued : (s.valuate limit).2.evaluated = 0
  tellsApart : s.TellsApart
  apart : ∀ us d, Runs o s .empty s.jobs us d → d.taken.Apart s.image

theorem IsLinked.root (h : s.IsLinked) {x : NativeType} (hx : x ∈ s.roots) :
    ∀ r ∈ x.references, r.target = s.targetOf? r.name := by
  intro r hr
  have hof : ∀ {α : Type} [Declaration α] {as : List α}, x ∈ as.flatMap Declaration.roots →
      ∃ y ∈ as.map subject, r ∈ y.2 := by
    intro α _ as hx
    obtain ⟨a, ha, hxa⟩ := List.mem_flatMap.mp hx
    exact ⟨subject a, List.mem_map_of_mem ha, List.mem_flatMap.mpr ⟨x, hxa, hr⟩⟩
  rcases List.mem_append.mp hx with hx | hx
  · obtain ⟨y, hy, hr⟩ := hof hx
    exact h y (List.mem_append_left _ hy) r hr
  · rcases List.mem_append.mp hx with hx | hx
    · obtain ⟨y, hy, hr⟩ := hof hx
      exact h y (List.mem_append_right _ (List.mem_append_left _ hy)) r hr
    · obtain ⟨y, hy, hr⟩ := hof hx
      exact h y (List.mem_append_right _ (List.mem_append_right _ hy)) r hr

theorem apart_of_bodies (h : ∀ x ∈ s.bodies, ∀ y ∈ s.bodies,
    (x.mapChildren s.image).same (y.mapChildren s.image) = true → x.same y = true) {us : List Marshalled} {d : Draft}
    (hrun : Runs o s .empty s.jobs us d) : d.taken.Apart s.image := by
  have hbodies := hrun.mem_bodies (fun j hj => meets_of_mem_jobs hj) fun name t ht => by
    cases Std.HashMap.getElem?_empty.symm.trans ht
  intro name i j held body _ _ hheld hstands hsame
  obtain ⟨other, hother, hbody⟩ := hstands
  have himage := NativeType.same_trans hsame (NativeType.same_symm (s.same_mapChildren_image hbody))
  exact NativeType.same_trans (h held (hbodies _ _ hheld) other (hbodies _ _ hother) himage) hbody

namespace Reloadable

variable (h : s.Reloadable o limit)

include h

theorem uniform {x : NativeType} (hx : x ∈ s.roots) : s.Uniform x where
  linked := h.linked.root hx
  copies := h.copies x hx
  keys y hy _ hk :=
    List.mem_append_right _ (List.mem_flatMap.mpr ⟨x, hx, List.mem_filterMap.mpr ⟨y, hy, hk⟩⟩)

theorem resolve_images (himages : s.Images t.link.1) (options : ResolveOptions) :
    (t.resolve options).1 = t.link.1 := by
  have hroots : ∀ x ∈ s.roots, s.Uniform x := fun x hx => h.uniform hx
  have hstable := himages.stable h.tellsApart hroots h.coherent (stable_of_evaluated_eq_zero h.coherent h.valued)
  exact hstable.valuate_eq_self (coherent_of_sameItems (himages.sameItems hroots) h.coherent) options.maxPasses

theorem emit?_images (himages : s.Images t) {e : Emission} (he : s.emit? o = some e) : t.emit? o = some e := by
  obtain ⟨depth, hdepth⟩ := emit?_eq_some_iff.mp he
  obtain ⟨classes, d, hrun⟩ := exists_run_of_emitWithin hdepth
  have hmirrors := himages.mirrors h.tellsApart fun x hx => h.uniform hx
  obtain ⟨us, vs, d₁, d₂, hbodies, hmethods, -, rfl⟩ := runs_of_emitStore hrun
  have hapart : d₂.taken.Apart s.image := h.apart _ _ (hbodies.append hmethods)
  have hsame := emitWithin_of_mirrors hmirrors (Nat.le_refl depth) hrun hapart
  exact emit?_eq_some_iff.mpr ⟨depth, hsame.trans hdepth⟩

end Reloadable

end Store

namespace Config

variable {c : Config} {d : DeclarationSet}

theorem exists_emission_of_convert {source : ExportSource} {r : Conversion} (h : (c.convert d source).2.2 = some r) :
    ∃ e, (c.convert d source).1.emit? c.emission = some e ∧ r.bindings = e.bindings ∧ r.skipped = e.skipped := by
  simp only [convert, Option.map_eq_some_iff] at h ⊢
  obtain ⟨e, he, rfl⟩ := h
  exact ⟨e, he, rfl, rfl⟩

theorem exists_convert_of_emission {source : ExportSource} {e : Emission}
    (h : (c.convert d source).1.emit? c.emission = some e) :
    ∃ r, (c.convert d source).2.2 = some r ∧ r.bindings = e.bindings ∧ r.skipped = e.skipped := by
  simp only [convert] at h ⊢
  exact ⟨_, Option.map_eq_some_iff.mpr ⟨e, h, rfl⟩, rfl, rfl⟩

theorem convertOffline_eq {s : Store} (hidle : s.pending = 0) :
    (c.convertOffline s).2 =
      ((s.resolve c.resolution).1.emit? c.emission).map (.of [] .empty (s.resolve c.resolution).2) := by
  simp only [convertOffline, Store.commit, hidle, if_true]

theorem convertOffline_reloaded (hd : d.All IsNamed) (source : ExportSource) :
    let s := (c.convert d source).1
    s.Reloadable c.emission c.maxPasses →
      ∃ t, Store.deserialize s.serialize = .ok (t, []) ∧
        ∀ r, (c.convert d source).2.2 = some r →
          ∃ r', (c.convertOffline t).2 = some r' ∧ r'.bindings = r.bindings ∧ r'.skipped = r.skipped := by
  intro s h
  have hnamed : s.WellNamed := wellNamed_convert hd source
  have himages : s.Images s.reloaded.link.1 := hnamed.images_reloaded (indexed_convert c d source) h.writable
  refine ⟨s.reloaded, hnamed.deserialize_eq h.readsBack h.writable, fun r hr => ?_⟩
  obtain ⟨e, he, hbindings, hskipped⟩ := exists_emission_of_convert hr
  have hagain : ((s.reloaded.resolve c.resolution).1).emit? c.emission = some e := by
    rw [h.resolve_images himages]
    exact h.emit?_images himages he
  rw [convertOffline_eq s.pending_reloaded, hagain]
  exact ⟨_, rfl, hbindings.symm, hskipped.symm⟩

def offline : Config :=
  { standard with bindsProcedures := false, seedsTypedefs := false }

theorem tables_committed_offline (hd : d.Distinct) :
    let s := offline.committed d
    s.typedefs.toList = d.typedefs ∧ s.definitions.toList = d.definitions ∧ s.constants.toList = d.constants ∧
      s.procedures.toList = d.procedures :=
  tables_committed (c := offline) hd ⟨fun a _ => Table.get?_empty (Declaration.name a),
    fun a _ => Table.get?_empty (Declaration.name a), fun a _ => Table.get?_empty (Declaration.name a),
    fun a _ => Table.get?_empty (Declaration.name a)⟩

theorem convert_offline_store_eq (d : DeclarationSet) (source : ExportSource) :
    (offline.convert d source).1 = ((offline.committed d).link.1.valuate offline.maxPasses).1 := by
  rw [convert_store_eq]
  -- The store is generalized so that it is not evaluated.
  generalize offline.committed d = s
  rfl

theorem entries_of_valued {ds : List Definition} (hnames : (ds.map Declaration.name).Nodup)
    (hvalued : ∀ i ∈ ds.flatMap Definition.items, i.value ≠ none) (hclosed : ∀ T, ds.map (Store.relink T) = ds)
    (source : ExportSource) :
    let s := (offline.convert ⟨[], ds, [], [], []⟩ source).1
    s.typedefs.toList = [] ∧ s.definitions.toList = ds ∧ s.constants.toList = [] ∧ s.procedures.toList = [] := by
  intro s
  obtain ⟨htypedefs, hdefinitions, hconstants, hprocedures⟩ :=
    tables_committed_offline (d := ⟨[], ds, [], [], []⟩) ⟨List.nodup_nil, hnames, List.nodup_nil, List.nodup_nil⟩
  have hwaits : ¬(offline.committed ⟨[], ds, [], [], []⟩).link.1.Waits := by
    rintro ⟨i, hi, hnone⟩
    have hvalue := hnone i hi rfl
    rw [Store.items_link, Store.items, htypedefs, hdefinitions, hconstants] at hi
    exact hvalued i hi hvalue
  have hresolved : s = (offline.committed ⟨[], ds, [], [], []⟩).link.1 :=
    (convert_offline_store_eq _ source).trans (congrArg Prod.fst (Store.valuate_of_not_waits _ hwaits))
  rw [hresolved, Store.link_eq]
  simp only [Table.toList_map, htypedefs, hdefinitions, hconstants, hprocedures, hclosed, List.map_nil, and_self]

def point : Record NativeType :=
  ⟨"POINT", [⟨"x", .builtin ⟨.int32, false⟩⟩, ⟨"y", .builtin ⟨.int32, false⟩⟩]⟩

def pointDefinition : Definition :=
  .record .struct point

def cursorDefinition : Definition :=
  .record .struct ⟨"CURSOR", [⟨"at", .record .struct point⟩]⟩

def withCopy : DeclarationSet :=
  ⟨[], [pointDefinition, cursorDefinition], [], [], []⟩

theorem entries_withCopy (source : ExportSource) :
    let s := (offline.convert withCopy source).1
    s.typedefs.toList = [] ∧ s.definitions.toList = [pointDefinition, cursorDefinition] ∧ s.constants.toList = [] ∧
      s.procedures.toList = [] := by
  refine entries_of_valued (by decide) ?_ (fun _ => rfl) source
  simp [pointDefinition, cursorDefinition, point]

theorem parts_withCopy (source : ExportSource) :
    (offline.convert withCopy source).1.parts = [.builtin ⟨.int32, false⟩, .builtin ⟨.int32, false⟩,
      .record .struct point, .builtin ⟨.int32, false⟩, .builtin ⟨.int32, false⟩] := by
  obtain ⟨htypedefs, hdefinitions, -, hprocedures⟩ := entries_withCopy source
  rw [Store.parts, Store.roots, htypedefs, hdefinitions, hprocedures]
  simp [pointDefinition, cursorDefinition, point, Declaration.roots, Definition.memberTypes, NativeType.visit_eq,
    NativeType.children]

theorem items_withCopy (source : ExportSource) : (offline.convert withCopy source).1.items = [] := by
  obtain ⟨htypedefs, hdefinitions, hconstants, -⟩ := entries_withCopy source
  rw [Store.items, htypedefs, hdefinitions, hconstants]
  simp [pointDefinition, cursorDefinition, point]

theorem definitions_get?_withCopy (source : ExportSource) :
    (offline.convert withCopy source).1.definitions.get? "POINT" = some pointDefinition := by
  obtain ⟨-, hdefinitions, -, -⟩ := entries_withCopy source
  rw [(indexed_convert offline withCopy source).definitions.get?_eq, hdefinitions]
  rfl

theorem hoist_withCopy (source : ExportSource) :
    NativeType.hoist (offline.convert withCopy source).1 (.record .struct point) =
      .named (.unlinked "POINT" .empty) := by
  have hindexed := indexed_convert offline withCopy source
  have hget := definitions_get?_withCopy source
  generalize (offline.convert withCopy source).1 = s at *
  have hcontains : s.contains (.definedType "POINT") = true := by
    unfold Store.contains
    dsimp only [Key.definedType]
    rw [hindexed.definitions.contains_eq, hget]
    rfl
  have hholds : s.holds (.record .struct point) = true := by
    simp only [Store.holds, NativeType.inlineKey?, point, Option.any_some, hcontains]
    decide
  exact NativeType.hoist_of_holds rfl hholds

theorem snapshot_withCopy (source : ExportSource) :
    (offline.convert withCopy source).1.snapshot = .object [("version", .integer 1), ("typedefs", .array []),
      ("defined_types", .array [pointDefinition.toJson,
        Definition.toJson (.record .struct ⟨"CURSOR", [⟨"at", .named (.unlinked "POINT" .empty)⟩]⟩)]),
      ("constants", .array []), ("procedures", .array [])] := by
  obtain ⟨htypedefs, hdefinitions, hconstants, hprocedures⟩ := entries_withCopy source
  rw [Store.snapshot, htypedefs, hdefinitions, hconstants, hprocedures, ← hoist_withCopy source]
  rfl

theorem readsBack_withCopy (source : ExportSource) : (offline.convert withCopy source).1.snapshot.ReadsBack := by
  rw [snapshot_withCopy]
  apply Json.readsBack_of_isLegible
  · simp [Json.IsLegible, Json.EntriesLegible, Json.AllLegible, Definition.toJson, pointDefinition, point,
      NativeType.membersJson, NativeType.toJson, Builtin.entries, Reference.entries, Reference.unlinked,
      Qualifiers.empty]
  · decide

theorem unwritable_withCopy (source : ExportSource) : (offline.convert withCopy source).1.unwritable = [] := by
  obtain ⟨htypedefs, hdefinitions, hconstants, hprocedures⟩ := entries_withCopy source
  have hhoist := hoist_withCopy source
  generalize (offline.convert withCopy source).1 = s at *
  have hwritable : ∀ a ∈ s.definitions.toList, s.isWritable a = true := by
    rw [hdefinitions]
    intro a ha
    rcases List.mem_pair.mp ha with rfl | rfl
    · rfl
    · unfold Store.isWritable Store.entryJson
      have hmap : Declaration.mapRoots (NativeType.hoist s) cursorDefinition =
          .record .struct ⟨"CURSOR", [⟨"at", NativeType.hoist s (.record .struct point)⟩]⟩ := rfl
      rw [hmap, hhoist]
      rfl
  rw [Store.unwritable, htypedefs, hconstants, hprocedures]
  simpa using hwritable

theorem isLinked_withCopy (source : ExportSource) : (offline.convert withCopy source).1.IsLinked := by
  obtain ⟨htypedefs, hdefinitions, -, hprocedures⟩ := entries_withCopy source
  have hsubjects : ∀ x ∈ (offline.convert withCopy source).1.subjects, x.2 = [] := by
    rw [Store.subjects, htypedefs, hdefinitions, hprocedures]
    simp [Store.subject, Declaration.references, Declaration.roots, Definition.memberTypes, pointDefinition,
      cursorDefinition, point]
  intro x hx r hr
  rw [hsubjects x hx] at hr
  cases hr

theorem isCopy_withCopy (source : ExportSource) :
    ∀ y ∈ (offline.convert withCopy source).1.parts, (offline.convert withCopy source).1.IsCopy y := by
  intro y hy
  rw [parts_withCopy] at hy
  simp only [List.mem_cons, List.not_mem_nil, or_false] at hy
  rcases hy with rfl | rfl | rfl | rfl | rfl
  · trivial
  · trivial
  · exact Store.node?_definedType (definitions_get?_withCopy source)
  · trivial
  · trivial

theorem tellsApart_withCopy (source : ExportSource) : (offline.convert withCopy source).1.TellsApart := by
  obtain ⟨htypedefs, hdefinitions, -, -⟩ := entries_withCopy source
  have hkeys : (offline.convert withCopy source).1.walkKeys = [.definedType "POINT", .definedType "CURSOR"] := by
    rw [Store.walkKeys, Store.nodeKeys, ← List.filterMap_flatMap, ← Store.parts, parts_withCopy, htypedefs,
      hdefinitions]
    rfl
  rw [Store.TellsApart, hkeys]
  decide +kernel

theorem bodies_withCopy (source : ExportSource) {x : NativeType} (hx : x ∈ (offline.convert withCopy source).1.bodies) :
    x = .builtin ⟨.int32, false⟩ ∨ x = .record .struct point ∨ x = cursorDefinition.toType := by
  obtain ⟨-, hdefinitions, -, -⟩ := entries_withCopy source
  have hbodies : ∀ x ∈ (offline.convert withCopy source).1.bodies,
      x = .builtin ⟨.int32, false⟩ ∨ x = .record .struct point ∨ x = cursorDefinition.toType := by
    rw [Store.bodies, parts_withCopy, hdefinitions]
    simp [pointDefinition, Definition.toType]
  exact hbodies x hx

theorem reloadable_withCopy (source : ExportSource) :
    (offline.convert withCopy source).1.Reloadable offline.emission offline.maxPasses where
  readsBack := readsBack_withCopy source
  writable := unwritable_withCopy source
  linked := isLinked_withCopy source
  copies x hx y hy _ := isCopy_withCopy source y (List.mem_flatMap.mpr ⟨x, hx, hy⟩)
  coherent := by
    rw [items_withCopy]
    exact fun i hi => absurd hi List.not_mem_nil
  valued := by
    rw [Store.valuate_of_not_waits]
    rintro ⟨i, hi, -⟩
    rw [items_withCopy] at hi
    cases hi
  tellsApart := tellsApart_withCopy source
  apart us d := by
    refine Store.apart_of_bodies fun x hx y hy hsame => ?_
    rcases bodies_withCopy source hx with rfl | rfl | rfl <;> rcases bodies_withCopy source hy with rfl | rfl | rfl <;>
      first
      | exact NativeType.same_refl _
      | simp [NativeType.same, NativeType.mapChildren, Definition.toType, cursorDefinition, point] at hsame

theorem exists_convert_withCopy (source : ExportSource) : ∃ r, (offline.convert withCopy source).2.2 = some r := by
  have hacyclic : (offline.convert withCopy source).1.Acyclic offline.emission := by
    have hparts := parts_withCopy source
    refine Store.acyclic_of_tagged (by rw [hparts]; decide) fun t ht hcycle => ?_
    obtain ⟨u, ⟨rank, length, hu⟩, -⟩ := Relation.TransGen.head'_iff.mp hcycle
    have hcovers := Store.Covers.of_leads (leads_canonicalFrom _ .nothing t) (Store.covers_of_mem_parts ht) hu
    have harray := hcovers.mem_parts
    rw [hparts] at harray
    simp at harray
  obtain ⟨ws, d, hrun⟩ := Store.exists_run_of_acyclic hacyclic .empty
  obtain ⟨us, vs, d₁, rfl, hbodies, -⟩ := hrun.of_append
  have hemit := Store.emit?_eq_some_iff_runs.mpr ⟨us, vs, d, hbodies.length_eq, hrun, rfl⟩
  obtain ⟨r, hr, -⟩ := exists_convert_of_emission hemit
  exact ⟨r, hr⟩

theorem convertOffline_reloaded_withCopy :
    let s := (offline.convert withCopy .empty).1
    withCopy.All IsNamed ∧ s.Reloadable offline.emission offline.maxPasses ∧
      ∃ t r r', Store.deserialize s.serialize = .ok (t, []) ∧ (offline.convert withCopy .empty).2.2 = some r ∧
        (offline.convertOffline t).2 = some r' ∧ r'.bindings = r.bindings ∧ r'.skipped = r.skipped := by
  intro s
  have hnamed : withCopy.All IsNamed := by
    refine ⟨nofun, fun a ha => ?_, nofun, nofun⟩
    rcases List.mem_pair.mp ha with rfl | rfl <;>
      simp [IsNamed, Declaration.name, Declaration.references, Declaration.roots, Definition.memberTypes,
        Definition.name, pointDefinition, cursorDefinition, point]
  have h := reloadable_withCopy .empty
  obtain ⟨t, ht, hagain⟩ := convertOffline_reloaded hnamed .empty h
  obtain ⟨r, hr⟩ := exists_convert_withCopy .empty
  obtain ⟨r', hr', hsame⟩ := hagain r hr
  exact ⟨hnamed, h, t, r, r', ht, hr, hr', hsame⟩

end Config

end HeaderBinding
