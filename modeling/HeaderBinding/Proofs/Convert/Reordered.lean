import HeaderBinding.Proofs.Convert.Converted
import HeaderBinding.Proofs.Emission.Order
import HeaderBinding.Proofs.Resolve.Accounting
import HeaderBinding.Proofs.Resolve.Ensures
import HeaderBinding.Proofs.Resolve.Rearranged

namespace HeaderBinding

namespace NativeType

variable {x y : NativeType}

theorem twins_of_assign_eq (h : x.assign noValues = y.assign noValues)
    (hvalues : List.Forall₂ (fun e e' => e.same e' = true) x.enumerations y.enumerations) : x.Twins y := by
  have hassigned (z : NativeType) : Related Eq (fun _ _ => True) z (z.assign noValues) := by
    rw [assign_eq_rewrite]
    exact related_rewrite (fun _ => rfl) (fun _ => trivial) z
  have hback : Related Eq (fun _ _ => True) (x.assign noValues) y :=
    h ▸ (hassigned y).symm (fun _ _ => Eq.symm) fun _ _ _ => trivial
  exact ((hassigned x).trans hback (fun _ _ _ => Eq.trans) fun _ _ _ _ _ => trivial).of_enumerations hvalues

end NativeType

theorem Typedef.name_eq_of_assign_eq {f : Values} {d d' : Typedef} (h : d.assign f = d'.assign f) :
    d.name = d'.name := by
  have hname := congrArg Typedef.name h
  exact hname

theorem Constant.name_eq_of_assign_eq {f : Values} {c c' : Constant} (h : c.assign f = c'.assign f) :
    c.name = c'.name := by
  have hname := congrArg Constant.name h
  exact hname

theorem Definition.name_eq_of_assign_eq {f : Values} {d d' : Definition} (h : d.assign f = d'.assign f) :
    d.name = d'.name := by
  rw [← d.name_assign (f := f), h, name_assign]

namespace Store

structure Permuted (s t : Store) : Prop extends Rearranged s t where
  procedures : s.procedures.toList.Perm t.procedures.toList

structure SameValues (s t : Store) : Prop where
  constants : ∀ c ∈ s.constants.toList, ∀ c' ∈ t.constants.toList, c.name = c'.name →
    sameOption TypedLiteral.same c.value c'.value = true
  typedefs : ∀ d ∈ s.typedefs.toList, ∀ d' ∈ t.typedefs.toList, d.name = d'.name →
    List.Forall₂ (fun e e' => e.same e' = true) d.target.enumerations d'.target.enumerations
  definitions : ∀ d ∈ s.definitions.toList, ∀ d' ∈ t.definitions.toList, d.name = d'.name →
    List.Forall₂ (fun e e' => e.same e' = true) d.enumerations d'.enumerations

variable {s t : Store} {o : EmitOptions}

theorem Permuted.targetOf?_eq (hs : s.Indexed) (ht : t.Indexed) (h : s.Permuted t) : s.targetOf? = t.targetOf? := by
  funext name
  rw [targetOf?, targetOf?, byName?_eq, byName?_eq, h.node?_eq hs ht, h.node?_eq hs ht]

theorem Permuted.link (hs : s.Indexed) (ht : t.Indexed) (h : s.Permuted t) : s.link.1.Permuted t.link.1 := by
  rw [link_eq, link_eq, h.targetOf?_eq hs ht]
  refine ⟨⟨h.constants, ?_, ?_⟩, ?_⟩
  · simpa only [Table.toList_map] using h.typedefs.map _
  · simpa only [Table.toList_map] using h.definitions.map _
  · simpa only [Table.toList_map] using h.procedures.map _

structure AlikeUnvalued (s t : Store) : Prop where
  permuted : (s.assign noValues).Permuted (t.assign noValues)
  left : (s.assign noValues).Indexed
  right : (t.assign noValues).Indexed

theorem assign_resolve (options : ResolveOptions) (s : Store) :
    (s.resolve options).1.assign noValues = s.link.1.assign noValues :=
  (revalued_valuate hereditary_true (fun _ _ _ _ => trivial) options.maxPasses : Revalued _ _ _ s.link.1 _).assign_eq

theorem Permuted.assign (h : s.Permuted t) (f : Values) : (s.assign f).Permuted (t.assign f) := by
  refine ⟨⟨?_, ?_, ?_⟩, h.procedures⟩
  · simpa only [Store.assign, Table.toList_map] using h.constants.map _
  · simpa only [Store.assign, Table.toList_map] using h.typedefs.map _
  · simpa only [Store.assign, Table.toList_map] using h.definitions.map _

theorem alikeUnvalued_resolve (hs : s.Indexed) (ht : t.Indexed) (h : s.Permuted t) (options options' : ResolveOptions) :
    (s.resolve options).1.AlikeUnvalued (t.resolve options').1 := by
  constructor
  · rw [assign_resolve, assign_resolve]
    exact (h.link hs ht).assign noValues
  · rw [assign_resolve]
    exact hs.link.assign noValues
  · rw [assign_resolve]
    exact ht.link.assign noValues

namespace AlikeUnvalued

theorem typedef_twins (hvalues : s.SameValues t) {d d' : Typedef} (hd : d ∈ s.typedefs.toList)
    (hd' : d' ∈ t.typedefs.toList) (heq : d.assign noValues = d'.assign noValues) : d.Twins d' := by
  have hname := Typedef.name_eq_of_assign_eq heq
  have htarget := congrArg Typedef.target heq
  exact ⟨hname, NativeType.twins_of_assign_eq htarget (hvalues.typedefs d hd d' hd' hname)⟩

theorem typedefs (h : s.AlikeUnvalued t) (hvalues : s.SameValues t) :
    UpToOrder Typedef.Twins s.typedefs.toList t.typedefs.toList := by
  have hperm := h.permuted.typedefs
  rw [assign, assign, Table.toList_map, Table.toList_map] at hperm
  exact (UpToOrder.of_map_perm hperm).imp fun d hd d' hd' heq => typedef_twins hvalues hd hd' heq

theorem definition_twins (hvalues : s.SameValues t) {d d' : Definition} (hd : d ∈ s.definitions.toList)
    (hd' : d' ∈ t.definitions.toList) (heq : d.assign noValues = d'.assign noValues) : d.Twins d' := by
  have htype := congrArg Definition.toType heq
  rw [Definition.toType_assign, Definition.toType_assign] at htype
  refine NativeType.twins_of_assign_eq htype ?_
  rw [Definition.enumerations_toType, Definition.enumerations_toType]
  exact hvalues.definitions d hd d' hd' (Definition.name_eq_of_assign_eq heq)

theorem definitions (h : s.AlikeUnvalued t) (hvalues : s.SameValues t) :
    UpToOrder Definition.Twins s.definitions.toList t.definitions.toList := by
  have hperm := h.permuted.definitions
  rw [assign, assign, Table.toList_map, Table.toList_map] at hperm
  exact (UpToOrder.of_map_perm hperm).imp fun d hd d' hd' heq => definition_twins hvalues hd hd' heq

theorem constants (h : s.AlikeUnvalued t) (hvalues : s.SameValues t) :
    UpToOrder Constant.Twins s.constants.toList t.constants.toList := by
  have hperm := h.permuted.constants
  rw [assign, assign, Table.toList_map, Table.toList_map] at hperm
  refine (UpToOrder.of_map_perm hperm).imp fun c hc c' hc' heq => ?_
  have hname := Constant.name_eq_of_assign_eq heq
  exact ⟨hname, sameOption_iff_rel.mp (hvalues.constants c hc c' hc' hname)⟩

theorem node (h : s.AlikeUnvalued t) (hvalues : s.SameValues t) (k : Key) :
    Option.Rel Node.Twins (s.node? k) (t.node? k) := by
  have hnode := h.permuted.node?_eq h.left h.right k
  rw [node?_assign, node?_assign] at hnode
  cases hs : s.node? k with
  | none =>
    cases ht : t.node? k with
    | none => exact .none
    | some n' =>
      rw [hs, ht] at hnode
      cases hnode
  | some n =>
    cases ht : t.node? k with
    | none =>
      rw [hs, ht] at hnode
      cases hnode
    | some n' =>
      rw [hs, ht] at hnode
      refine .some ?_
      cases n with
      | synonym d =>
        cases n' with
        | synonym d' =>
          have heq := Node.synonym.inj (Option.some.inj hnode)
          exact .synonym (typedef_twins hvalues (typedef_of_node? hs).1 (typedef_of_node? ht).1 heq)
        | definition d' => cases Option.some.inj hnode
      | definition d =>
        cases n' with
        | synonym d' => cases Option.some.inj hnode
        | definition d' =>
          have heq := Node.definition.inj (Option.some.inj hnode)
          exact .definition (definition_twins hvalues (definition_of_node? hs).1 (definition_of_node? ht).1 heq)

theorem bound (h : s.AlikeUnvalued t) (hvalues : s.SameValues t) (name : String) :
    (boundValue? s name).isSome = (boundValue? t name).isSome := by
  have hget := h.left.constants.get?_perm h.right.constants h.permuted.constants name
  have hassign : ∀ c : Constant, Declaration.name (c.assign noValues) = Declaration.name c := fun _ => rfl
  rw [assign, assign, Table.get?_map hassign, Table.get?_map hassign] at hget
  unfold boundValue?
  cases hs : s.constants.get? name with
  | none =>
    cases ht : t.constants.get? name with
    | none => rfl
    | some c' =>
      rw [hs, ht] at hget
      cases hget
  | some c =>
    cases ht : t.constants.get? name with
    | none =>
      rw [hs, ht] at hget
      cases hget
    | some c' =>
      rw [hs, ht] at hget
      rw [Option.map_some, Option.map_some, Option.some.injEq] at hget
      have hname := Constant.name_eq_of_assign_eq hget
      have hvalue := sameOption_iff_rel.mp
        (hvalues.constants c (Table.mem_of_get?_eq_some hs).1 c' (Table.mem_of_get?_eq_some ht).1 hname)
      dsimp only [Option.bind_eq_bind, Option.bind_some]
      generalize c.value = v at hvalue
      generalize c'.value = w at hvalue
      cases hvalue with
      | none => rfl
      | some hvw => exact congrArg Option.isSome (TypedLiteral.narrowedTo?_eq_of_same hvw .int32)

theorem reordered (h : s.AlikeUnvalued t) (hvalues : s.SameValues t) : s.Reordered t where
  agrees := ⟨h.node hvalues, h.bound hvalues⟩
  typedefs := h.typedefs hvalues
  definitions := h.definitions hvalues
  constants := h.constants hvalues
  procedures := h.permuted.procedures

end AlikeUnvalued

theorem IsLinked.linkedBy_of_mem_roots (h : s.IsLinked) {x : NativeType} (hx : x ∈ s.roots) :
    x.LinkedBy s.targetOf? := by
  have hof : ∀ {α : Type} [Declaration α] {as : List α}, x ∈ as.flatMap Declaration.roots →
      (∀ a ∈ as, subject a ∈ s.subjects) → x.LinkedBy s.targetOf? := by
    intro α _ as hx has r hr
    obtain ⟨a, ha, hx⟩ := List.mem_flatMap.mp hx
    exact h (subject a) (has a ha) r (List.mem_flatMap.mpr ⟨x, hx, hr⟩)
  rcases List.mem_append.mp hx with hx | hx
  · exact hof hx fun a ha => List.mem_append_left _ (List.mem_map_of_mem ha)
  · rcases List.mem_append.mp hx with hx | hx
    · exact hof hx fun a ha => List.mem_append_right _ (List.mem_append_left _ (List.mem_map_of_mem ha))
    · exact hof hx fun a ha => List.mem_append_right _ (List.mem_append_right _ (List.mem_map_of_mem ha))

theorem IsLinked.linkedBy_of_mem_bodies (h : s.IsLinked) {x : NativeType} (hx : x ∈ s.bodies) :
    x.LinkedBy s.targetOf? := by
  rcases List.mem_append.mp hx with hx | hx
  · obtain ⟨d, hd, rfl⟩ := List.mem_map.mp hx
    intro r hr
    rw [NativeType.references_eq] at hr
    rcases List.mem_append.mp hr with hr | hr
    · cases d <;> cases hr
    · obtain ⟨c, hc, hr⟩ := List.mem_flatMap.mp hr
      refine h.linkedBy_of_mem_roots (mem_roots_of_definition hd ?_) r hr
      cases d with
      | record kind body => exact hc
      | enumeration e => cases hc
  · obtain ⟨root, hroot, hx⟩ := List.mem_flatMap.mp hx
    exact (h.linkedBy_of_mem_roots hroot).of_mem_visit hx

def FoundByName (o : EmitOptions) (s : Store) : Prop :=
  ∀ us d, Runs o s .empty s.jobs us d → ∀ j ∈ s.jobs, ∀ name body, j.Asks o s name body → ∀ n, 1 < n →
    d.taken.StandsFor (Draft.offer name n) body → d.taken.StandsFor name body

theorem foundByName_of_plainRuns {us : List Marshalled} {d : Draft} (h : PlainRuns o s .empty s.jobs us d) :
    s.FoundByName o := by
  intro vs d' hrun j hj name body hasks n _ _
  obtain ⟨-, rfl⟩ := hrun.unique h.runs
  exact h.finishes.closed.standsFor hasks (h.finishes.jobs j hj)

theorem exists_plainRuns_of_emit? (hs : s.IsLinked) {e : Emission} (h : s.emit? o = some e)
    (hquiet : e.diagnostics.ofKind .renamedType = []) (hfound : s.FoundByName o) :
    ∃ us vs d, us.length = s.bodyJobs.length ∧ PlainRuns o s .empty s.jobs (us ++ vs) d ∧ e = s.emission o vs d := by
  obtain ⟨us, vs, d, hlength, hrun, rfl⟩ := emit?_eq_some_iff_runs.mp h
  refine ⟨us, vs, d, hlength, ?_, rfl⟩
  refine hrun.plain hquiet (.refl _) (fun j hj => meets_of_mem_jobs hj) ?_ ?_ (hfound _ d hrun)
  · exact hrun.mem_bodies (fun j hj => meets_of_mem_jobs hj) fun name x hx => by simp [Draft.empty] at hx
  · intro x hx y hy hsame
    exact NativeType.twins_of_same hsame (hs.linkedBy_of_mem_bodies hx) (hs.linkedBy_of_mem_bodies hy)

theorem exists_emit?_of_permuted (hs : s.Indexed) (ht : t.Indexed) (h : s.Permuted t)
    (hunlinked : s.All Declaration.IsUnlinked) {options options' : ResolveOptions}
    (hvalues : (s.resolve options).1.SameValues (t.resolve options').1) {e : Emission}
    (he : (s.resolve options).1.emit? o = some e) (hquiet : e.diagnostics.ofKind .renamedType = [])
    (hfound : (s.resolve options).1.FoundByName o) :
    ∃ e', (t.resolve options').1.emit? o = some e' ∧ e'.diagnostics.ofKind .renamedType = [] ∧
      e.bindings.Reordered e'.bindings := by
  obtain ⟨us, vs, d, hlength, hrun, rfl⟩ :=
    exists_plainRuns_of_emit? (isLinked_resolve hunlinked options) he hquiet hfound
  have hst := (alikeUnvalued_resolve hs ht h options options').reordered hvalues
  exact exists_reordered_of_plainRuns hst hlength hrun

def corner : Definition :=
  .record .struct ⟨"POINT", [⟨"x", .builtin ⟨.int32, false⟩⟩]⟩

def frame (target : Option Target) : Definition :=
  .record .struct ⟨"RECT", [⟨"at", .named ⟨"POINT", target, .empty⟩⟩]⟩

def inOrder (ds : List Definition) : Store :=
  { empty with definitions := ⟨ds.toArray, Table.indexOf ds⟩ }

section

variable {ds : List Definition}

theorem indexed_inOrder (h : (ds.map Definition.name).Nodup) : (inOrder ds).Indexed :=
  ⟨Table.indexed_empty, Table.indexed_indexOf ds h, Table.indexed_empty, Table.indexed_empty⟩

theorem resolve_inOrder (h : ∀ d ∈ ds, d.items = []) (options : ResolveOptions) :
    ((inOrder ds).resolve options).1 = (inOrder ds).link.1 := by
  have hwaits : ¬(inOrder ds).link.1.Waits := by
    rintro ⟨i, hi, -⟩
    rw [items_link] at hi
    rcases List.mem_append.mp hi with hi | hi
    · cases hi
    · rcases List.mem_append.mp hi with hi | hi
      · cases hi
      · obtain ⟨d, hd, hi⟩ := List.mem_flatMap.mp hi
        rw [h d hd] at hi
        cases hi
  exact congrArg Prod.fst (valuate_of_not_waits options.maxPasses hwaits)

theorem tables_inOrder (ds : List Definition) :
    let s := (inOrder ds).link.1
    s.typedefs.toList = [] ∧ s.definitions.toList = ds.map (relink (inOrder ds).targetOf?) ∧ s.constants.toList = [] ∧
      s.procedures.toList = [] := by
  rw [link_eq]
  simp only [Table.toList_map]
  exact ⟨rfl, rfl, rfl, rfl⟩

theorem sameValues_inOrder {ds' : List Definition} (h : ds.Perm [corner, frame none])
    (h' : ds'.Perm [corner, frame none]) : (inOrder ds).link.1.SameValues (inOrder ds').link.1 := by
  have hnone {ds : List Definition} (h : ds.Perm [corner, frame none]) :
      ∀ d ∈ (inOrder ds).link.1.definitions.toList, d.enumerations = [] := by
    obtain ⟨-, hdefinitions, -⟩ := tables_inOrder ds
    rw [hdefinitions]
    intro d hd
    obtain ⟨x, hx, rfl⟩ := List.mem_map.mp hd
    rcases List.mem_pair.mp (h.mem_iff.mp hx) with rfl | rfl <;>
      simp [relink, corner, frame, Definition.mapRoots_record, Definition.enumerations, Definition.memberTypes]
  obtain ⟨htypedefs, -, hconstants, -⟩ := tables_inOrder ds
  constructor
  · rw [hconstants]
    exact fun c hc => absurd hc List.not_mem_nil
  · rw [htypedefs]
    exact fun t ht => absurd ht List.not_mem_nil
  · intro d hd d' hd' _
    rw [hnone h d hd, hnone h' d' hd']
    exact .nil

theorem relink_frame (h : ds.Perm [corner, frame none]) :
    relink (inOrder ds).targetOf? (frame none) = frame (some (.declaration (.definedType "POINT"))) := by
  have hnames : (ds.map Definition.name).Nodup := (h.map Definition.name).nodup_iff.mpr (by decide)
  have hget : (inOrder ds).definitions.get? "POINT" = some corner :=
    (indexed_inOrder hnames).definitions.get?_eq_some_iff.mpr ⟨h.mem_iff.mpr (List.mem_cons_self ..), rfl⟩
  have hlinked : Reference.linkedBy (inOrder ds).targetOf? ⟨"POINT", none, .empty⟩ =
      ⟨"POINT", some (.declaration (.definedType "POINT")), .empty⟩ := by
    have hunlinked : ¬(Reference.isLinked ⟨"POINT", none, .empty⟩) = true := Bool.false_ne_true
    rw [Reference.linkedBy, if_neg hunlinked, targetOf?, byName?, hget]
    rfl
  exact congrArg (fun r => Definition.record .struct ⟨"RECT", [⟨"at", .named r⟩]⟩) hlinked

end

theorem plainRuns_inOrder : ∃ us d, us.length = (inOrder [corner, frame none]).link.1.bodyJobs.length ∧
    PlainRuns .standard (inOrder [corner, frame none]).link.1 .empty
      (inOrder [corner, frame none]).link.1.jobs us d := by
  obtain ⟨htypedefs, hdefinitions, -, hprocedures⟩ := tables_inOrder [corner, frame none]
  have hindexed : (inOrder [corner, frame none]).link.1.Indexed := (indexed_inOrder (by decide)).link
  rw [List.map_cons, List.map_cons, List.map_nil, relink_frame (.refl _)] at hdefinitions
  have hcorner : relink (inOrder [corner, frame none]).targetOf? corner = corner := rfl
  rw [hcorner] at hdefinitions
  generalize (inOrder [corner, frame none]).link.1 = s at *
  have hjobs : s.bodyJobs = [corner.job, (frame (some (.declaration (.definedType "POINT")))).job] := by
    rw [bodyJobs, htypedefs, hdefinitions]
    rfl
  have hall : s.jobs = s.bodyJobs := by
    rw [jobs, methodSites, hprocedures]
    exact List.append_nil _
  have hnode : s.node? (.definedType "POINT") = some (.definition corner) := by
    unfold node?
    dsimp only [Key.definedType]
    rw [hindexed.definitions.get?_eq, hdefinitions]
    rfl
  have hleaf : Job.plan .standard s (.use ⟨.builtin ⟨.int32, false⟩, .field, "POINT_x"⟩) =
      .leaf (.plain (.primitive .int32)) :=
    Job.plan_builtin ..
  have hbody : Job.plan .standard s
      (.use ⟨.named ⟨"POINT", some (.declaration (.definedType "POINT")), .empty⟩, .field, "RECT_at"⟩) =
        .body "POINT" corner.toType := by
    have hleads : Leads s .nothing (.named ⟨"POINT", some (.declaration (.definedType "POINT")), .empty⟩) _ :=
      .definition rfl rfl hnode
    have hdenoted : (Site.canonical s
        ⟨.named ⟨"POINT", some (.declaration (.definedType "POINT")), .empty⟩, .field, "RECT_at"⟩).denoted =
          .definition corner := congrArg Canonical.denoted hleads.eq
    exact Site.plan_of_definition hdenoted
  rw [hall, hjobs]
  refine ⟨_, _, rfl, .fresh rfl ?_ (.leaf hleaf (.nil _)) (.fresh rfl ?_ (.held hbody ?_ (.refl _) (.nil _)) (.nil _))⟩
  · exact Std.HashMap.not_mem_empty
  · rw [Draft.declare, Draft.taken_leave, Job.taken_note, Draft.taken_enter]
    simp [Draft.take, Draft.empty, corner, frame, Definition.name]
  · rw [Draft.taken_enter, Draft.take, Draft.declare, Draft.taken_leave, Job.taken_note, Draft.taken_enter, Draft.take]
    rw [Std.HashMap.getElem?_insert, if_neg (by decide)]
    exact Std.HashMap.getElem?_insert_self

theorem exists_emit?_inOrder :
    let s := inOrder [corner, frame none]
    let t := inOrder [frame none, corner]
    s.Indexed ∧ t.Indexed ∧ s.Permuted t ∧ s.All Declaration.IsUnlinked ∧
      (s.resolve .standard).1.SameValues (t.resolve .standard).1 ∧ (s.resolve .standard).1.FoundByName .standard ∧
        ∃ e e', (s.resolve .standard).1.emit? .standard = some e ∧ e.diagnostics.ofKind .renamedType = [] ∧
          (t.resolve .standard).1.emit? .standard = some e' ∧ e'.diagnostics.ofKind .renamedType = [] ∧
            e.bindings.Reordered e'.bindings := by
  intro s t
  have hs : s.Indexed := indexed_inOrder (by decide)
  have ht : t.Indexed := indexed_inOrder (by decide)
  have hperm : s.Permuted t := ⟨⟨.refl _, .refl _, List.Perm.swap ..⟩, .refl _⟩
  have hunlinked : s.All Declaration.IsUnlinked := by
    refine ⟨nofun, fun a ha => ?_, nofun, nofun⟩
    rcases List.mem_pair.mp ha with rfl | rfl <;>
      simp [Declaration.IsUnlinked, Declaration.references, Declaration.roots, Definition.memberTypes, corner, frame]
  have hitems : ∀ d ∈ [corner, frame none], d.items = [] := by simp [corner, frame]
  have hitems' : ∀ d ∈ [frame none, corner], d.items = [] := by simp [corner, frame]
  have hvalues : (s.resolve .standard).1.SameValues (t.resolve .standard).1 := by
    rw [resolve_inOrder hitems, resolve_inOrder hitems']
    exact sameValues_inOrder (.refl _) (.swap ..)
  obtain ⟨us, d, hlength, hrun⟩ := plainRuns_inOrder
  rw [← resolve_inOrder hitems .standard] at hlength hrun
  have hfound := foundByName_of_plainRuns hrun
  have hemit : (s.resolve .standard).1.emit? .standard = some ((s.resolve .standard).1.emission .standard [] d) := by
    refine emit?_eq_some_iff_runs.mpr ⟨us, [], d, hlength, ?_, rfl⟩
    rw [List.append_nil]
    exact hrun.runs
  obtain ⟨e', he', hquiet, hreordered⟩ :=
    exists_emit?_of_permuted hs ht hperm hunlinked hvalues hemit hrun.finishes.quiet hfound
  exact ⟨hs, ht, hperm, hunlinked, hvalues, hfound, _, e', hemit, hrun.finishes.quiet, he', hquiet, hreordered⟩

end Store

end HeaderBinding
