import HeaderBinding.Proofs.Emission.Marshal

namespace HeaderBinding

open Managed (Bindings TypeDecl TypeRef)

namespace Managed

def TypeDecl.isContainer (t : TypeDecl) : Bool :=
  match t.body with
  | .container _ _ => true
  | _ => false

namespace Bindings

def declarations (b : Bindings) : List TypeDecl :=
  b.types.filter (!·.isContainer)

def declared (b : Bindings) : List String :=
  b.declarations.map (·.name)

def used (b : Bindings) : List String :=
  (b.types.flatMap TypeDecl.uses).flatMap TypeRef.names

def methods (b : Bindings) : List Method :=
  b.types.flatMap TypeDecl.methods

end Bindings

end Managed

structure Linked (o : EmitOptions) (s : Store) (taken : Taken) (b : Bindings) : Prop where
  used : ∀ name ∈ b.used, ∃ t, b.declarations.filter (·.name == name) = [t]
  declared : ∀ name, name ∈ b.declared ↔ name ∈ taken
  standsFor : ∀ name body, taken.StandsFor name body →
    ∃ t, b.declarations.filter (·.name == name) = [t] ∧
      ∃ held, held.same body = true ∧ EmittedFrom s taken o held t
  emitted : ∀ t ∈ b.declarations, ∃ body, taken[t.name]? = some body ∧ EmittedFrom s taken o body t
  methods : List.Forall₂ (fun p m => MethodFits s taken (Procedure.returns p) p.params m)
    s.procedures.toList b.methods

variable {o : EmitOptions} {s : Store} {started : List String}

theorem emits_discard {α : Type} {step : Emit α} {right : Taken → α → Prop}
    (hstep : Emits o s started step right) :
    Emits o s started (do let _ ← step) fun _ _ => True :=
  hstep.seq (.pure fun _ => trivial)

theorem emits_forM {α : Type} {f : α → Emit Unit}
    (hf : ∀ a, Emits o s started (f a) fun _ _ => True) (as : List α) :
    Emits o s started (as.forM f) fun _ _ => True := by
  induction as with
  | nil => exact .pure fun _ => trivial
  | cons a rest ih => exact (hf a).seq ih

theorem emits_mapM {α β : Type} {f : α → Emit β} {fits : Taken → α → β → Prop}
    (hf : ∀ a, Emits o s started (f a) fun taken b => fits taken a b)
    (hlasting : ∀ a, Lasting fun taken b => fits taken a b) (as : List α) :
    Emits o s started (as.mapM f) fun taken bs => List.Forall₂ (fits taken) as bs := by
  induction as with
  | nil => exact .pure fun _ => .nil
  | cons a rest ih =>
    rw [List.mapM_cons]
    refine (hf a).bind (fun b => ?_) (hlasting a)
    refine ih.bind (fun bs => ?_) (.forall₂ hlasting)
    exact .pure fun _ hrest hfirst => .cons hfirst hrest

section

variable {depth : Nat}

theorem emits_definition (d : Definition) :
    Emits o s started (emitDefinition (marshalWithin o s depth) d) fun _ _ => True := by
  have huse := marshals_within o s depth
  cases d with
  | record kind body => exact emits_discard (emits_record huse body.name kind body)
  | enumeration e => exact emits_discard (emits_enum e.name e)

theorem emits_typedef (d : Typedef) :
    Emits o s started (emitTypedef o s (marshalWithin o s depth) d) fun _ _ => True := by
  have huse := marshals_within o s depth
  unfold emitTypedef
  dsimp only
  split
  · exact emits_discard (emits_record huse _ _ _)
  · exact emits_discard (emits_enum _ _)
  · exact emits_discard (emits_delegate huse _ _)
  · exact .pure fun _ => trivial

theorem emits_procedure (p : Procedure) :
    Emits o s started (emitProcedure o (marshalWithin o s depth) p)
      fun taken m => MethodFits s taken p.returns p.params m := by
  refine (emits_method (marshals_within o s depth) p.name p.returns p.params).bind (fun m => ?_) ?_
  · exact .pure fun _ h => ⟨h.returns, h.params⟩
  · exact fun _ _ _ hwithin h => h.within hwithin

theorem names_constantField (isBound : Bool) (name : String) (v : TypedLiteral) :
    (constantField isBound name v).type.names = [] := by
  unfold constantField
  dsimp only
  split <;> rfl

theorem emits_constant (c : Constant) :
    Emits o s started (emitConstant c) fun _ r => ∀ f ∈ r, f.type.names = [] := by
  unfold emitConstant
  split
  · intro d r d' hd hrun
    cases hrun
    refine ⟨hd, .refl _, fun f hf => ?_⟩
    cases hf
    exact names_constantField ..
  · refine Emits.seq (Emits.elsewhere ?htaken ?htypes) (.pure fun _ => nofun)
    case htaken => exact fun _ => rfl
    case htypes => exact fun _ => rfl

structure ClassesFit (o : EmitOptions) (s : Store) (taken : Taken) (classes : List TypeDecl) : Prop where
  isContainer : ∀ t ∈ classes, t.isContainer = true
  fields : ∀ t ∈ classes, ∀ f ∈ t.fields, f.type.names = []
  methods : List.Forall₂ (fun p m => MethodFits s taken (Procedure.returns p) p.params m)
    s.procedures.toList (classes.flatMap TypeDecl.methods)

theorem container_cases {name : String} {fields : List Managed.Field} {methods : List Managed.Method}
    {t : TypeDecl} (ht : t ∈ container name fields methods) :
    t = ⟨name, [], .container fields methods⟩ := by
  unfold container at ht
  split at ht
  · cases ht
  · exact List.mem_singleton.mp ht

theorem flatMap_methods_container (name : String) (fields : List Managed.Field)
    (methods : List Managed.Method) :
    (container name fields methods).flatMap TypeDecl.methods = methods := by
  unfold container
  split
  · rename_i hempty
    rw [Bool.and_eq_true, List.isEmpty_iff, List.isEmpty_iff] at hempty
    rw [hempty.2, List.flatMap_nil]
  · exact List.append_nil methods

theorem classesFit_containers {taken : Taken} {fields : List (Option Managed.Field)}
    {methods : List Managed.Method} (hfields : ∀ r ∈ fields, ∀ f ∈ r, f.type.names = [])
    (hmethods : List.Forall₂ (fun p m => MethodFits s taken (Procedure.returns p) p.params m)
      s.procedures.toList methods) :
    ClassesFit o s taken
      (container o.constantsClass (fields.filterMap id) [] ++ container o.methodsClass [] methods) where
  isContainer t ht := by
    rcases List.mem_append.mp ht with ht | ht
    · rw [container_cases ht]
      rfl
    · rw [container_cases ht]
      rfl
  fields t ht f hf := by
    rcases List.mem_append.mp ht with ht | ht
    · rw [container_cases ht] at hf
      obtain ⟨r, hr, hrf⟩ := List.mem_filterMap.mp hf
      exact hfields r hr f hrf
    · rw [container_cases ht] at hf
      cases hf
  methods := by
    rw [List.flatMap_append, flatMap_methods_container, flatMap_methods_container, List.nil_append]
    exact hmethods

theorem emits_store :
    Emits o s started (emitStore o s (marshalWithin o s depth))
      fun taken classes => ClassesFit o s taken classes := by
  refine Emits.seq (emits_forM emits_definition _) ?_
  refine Emits.seq (emits_forM emits_typedef _) ?_
  have hlasting : ∀ p : Procedure, Lasting fun taken m => MethodFits s taken p.returns p.params m :=
    fun p _ _ _ hwithin h => h.within hwithin
  refine Emits.bind (emits_mapM emits_procedure hlasting _) (fun methods => ?_) (.forall₂ hlasting)
  have hconstants : Emits o s started (s.constants.toList.mapM emitConstant)
      fun _ fields => ∀ r ∈ fields, ∀ f ∈ r, f.type.names = [] := by
    refine (emits_mapM emits_constant (fun _ => lasting_const) _).imp ?_
    intro _ fields hfits r hr
    obtain ⟨_, -, hnames⟩ := exists_of_forall₂ hfits hr
    exact hnames
  refine hconstants.bind (fun fields => ?_) lasting_const
  exact .pure fun taken hfields hmethods => classesFit_containers hfields hmethods

end

theorem filter_name_of_nodup {ts : List TypeDecl} (h : (ts.map (·.name)).Nodup) {t : TypeDecl}
    (ht : t ∈ ts) : ts.filter (·.name == t.name) = [t] := by
  induction ts with
  | nil => cases ht
  | cons u rest ih =>
    rw [List.map_cons, List.nodup_cons] at h
    obtain ⟨hnotin, hrest⟩ := h
    rcases List.mem_cons.mp ht with rfl | ht
    · have hothers : rest.filter (·.name == t.name) = [] := by
        rw [List.filter_eq_nil_iff]
        intro v hv heq
        exact hnotin (List.mem_map.mpr ⟨v, hv, eq_of_beq heq⟩)
      have hself : (t.name == t.name) = true := BEq.rfl
      rw [List.filter_cons, if_pos hself, hothers]
    · have hne : ¬(u.name == t.name) = true := by
        intro heq
        exact hnotin (List.mem_map.mpr ⟨t, ht, (eq_of_beq heq).symm⟩)
      rw [List.filter_cons, if_neg hne, ih hrest ht]

theorem EmittedFrom.not_isContainer {taken : Taken} {body : NativeType} {t : TypeDecl}
    (h : EmittedFrom s taken o body t) : t.isContainer = false := by
  cases h <;> rfl

theorem ClassesFit.mem_of_mem_uses {taken : Taken} {classes : List TypeDecl}
    (h : ClassesFit o s taken classes) {t : TypeDecl} (ht : t ∈ classes) {r : TypeRef}
    (hr : r ∈ t.uses) {name : String} (hname : name ∈ r.names) : name ∈ taken := by
  have hsignature : t.signature? = none := by
    have hcontainer := h.isContainer t ht
    unfold TypeDecl.isContainer at hcontainer
    unfold TypeDecl.signature?
    split at hcontainer
    · rename_i heq
      rw [heq]
    · cases hcontainer
  rw [TypeDecl.uses, hsignature, List.mem_append] at hr
  rcases hr with hr | hr
  · obtain ⟨f, hf, rfl⟩ := List.mem_map.mp hr
    rw [h.fields t ht f hf] at hname
    cases hname
  · obtain ⟨m, hm, hr⟩ := List.mem_flatMap.mp hr
    obtain ⟨p, -, hp⟩ := exists_of_forall₂ h.methods (List.mem_flatMap.mpr ⟨t, ht, hm⟩)
    exact hp.mem_of_mem_uses hr hname

section

variable {d : Draft} {classes : List TypeDecl} (hd : d.Consistent o s [])
  (hclasses : ClassesFit o s d.taken classes)

include hd

theorem mem_taken_iff (name : String) : name ∈ d.taken ↔ name ∈ d.names := by
  rw [hd.mem_taken]
  constructor
  · intro h
    exact h.resolve_left List.not_mem_nil
  · exact .inr

theorem exists_unique_of_mem_taken {name : String} (hname : name ∈ d.taken) :
    ∃ t ∈ d.types.toList, t.name = name ∧ d.types.toList.filter (·.name == name) = [t] := by
  obtain ⟨t, ht, rfl⟩ := List.mem_map.mp ((mem_taken_iff hd name).mp hname)
  exact ⟨t, ht, rfl, filter_name_of_nodup hd.nodup ht⟩

theorem methods_append :
    Bindings.methods ⟨d.types.toList ++ classes⟩ = classes.flatMap TypeDecl.methods := by
  have htypes : d.types.toList.flatMap TypeDecl.methods = [] := by
    rw [List.flatMap_eq_nil_iff]
    intro t ht
    obtain ⟨body, -, hemitted⟩ := hd.emitted t ht
    cases hemitted <;> rfl
  rw [Bindings.methods, List.flatMap_append, htypes, List.nil_append]

include hclasses

theorem declarations_append : Bindings.declarations ⟨d.types.toList ++ classes⟩ = d.types.toList := by
  have htypes : d.types.toList.filter (!·.isContainer) = d.types.toList := by
    rw [List.filter_eq_self]
    intro t ht
    obtain ⟨body, -, hemitted⟩ := hd.emitted t ht
    rw [hemitted.not_isContainer]
    rfl
  have hothers : classes.filter (!·.isContainer) = [] := by
    rw [List.filter_eq_nil_iff]
    intro t ht
    rw [hclasses.isContainer t ht]
    nofun
  rw [Bindings.declarations, List.filter_append, htypes, hothers, List.append_nil]

theorem mem_taken_of_mem_used {name : String}
    (hname : name ∈ Bindings.used ⟨d.types.toList ++ classes⟩) : name ∈ d.taken := by
  obtain ⟨r, hr, hname⟩ := List.mem_flatMap.mp hname
  obtain ⟨t, ht, hr⟩ := List.mem_flatMap.mp hr
  rcases List.mem_append.mp ht with ht | ht
  · obtain ⟨body, -, hemitted⟩ := hd.emitted t ht
    exact hemitted.mem_of_mem_uses hr hname
  · exact hclasses.mem_of_mem_uses ht hr hname

theorem linked_of_consistent : Linked o s d.taken ⟨d.types.toList ++ classes⟩ := by
  have hdeclarations := declarations_append hd hclasses
  constructor
  · intro name hname
    obtain ⟨t, -, -, hfilter⟩ :=
      exists_unique_of_mem_taken hd (mem_taken_of_mem_used hd hclasses hname)
    rw [hdeclarations]
    exact ⟨t, hfilter⟩
  · intro name
    rw [Bindings.declared, hdeclarations, mem_taken_iff hd]
    rfl
  · rintro name body ⟨held, hheld, hsame⟩
    have hname : name ∈ d.taken := by
      rw [Std.HashMap.mem_iff_isSome_getElem?, hheld]
      rfl
    obtain ⟨t, ht, rfl, hfilter⟩ := exists_unique_of_mem_taken hd hname
    obtain ⟨held', hheld', hemitted⟩ := hd.emitted t ht
    obtain rfl : held' = held := Option.some.inj (hheld'.symm.trans hheld)
    rw [hdeclarations]
    exact ⟨t, hfilter, held', hsame, hemitted⟩
  · rw [hdeclarations]
    exact hd.emitted
  · rw [methods_append hd]
    exact hclasses.methods

end

theorem Store.linked_of_emitWithin {depth : Nat} {e : Emission} (h : s.emitWithin depth o = some e) :
    ∃ classes d, (emitStore o s (marshalWithin o s depth)).run .empty = some (classes, d) ∧
      e.bindings = ⟨d.types.toList ++ classes⟩ ∧ Linked o s d.taken e.bindings := by
  unfold emitWithin at h
  obtain ⟨⟨classes, d⟩, hrun, hresult⟩ := Option.bind_eq_some_iff.mp h
  cases hresult
  obtain ⟨hd, -, hclasses⟩ := emits_store .empty classes d (Draft.consistent_empty o s) hrun
  exact ⟨classes, d, hrun, rfl, linked_of_consistent hd hclasses⟩

def innerPoint : Record NativeType :=
  ⟨"Pt", [⟨"x", .builtin ⟨.int32, false⟩⟩]⟩

def outerPoint : Record NativeType :=
  ⟨"Pt", [⟨"p", .record .struct innerPoint⟩]⟩

def nestedPoints : Store :=
  { Store.empty with definitions := ⟨#[.record .struct outerPoint], ∅⟩ }

def innerDecl : TypeDecl :=
  ⟨"Pt_2", [layout .struct false], .record [⟨"x", .primitive .int32, [], none, false⟩]⟩

def outerDecl : TypeDecl :=
  ⟨"Pt", [layout .struct false], .record [⟨"p", .named "Pt_2", [], none, false⟩]⟩

def outerDraft : Draft :=
  ⟨#[], (∅ : Taken).insert "Pt" (.record .struct outerPoint), ∅, some (.definedType "Pt"), [], []⟩

def pointsTaken : Taken :=
  outerDraft.taken.insert "Pt_2" (.record .struct innerPoint)

theorem recordDecl_singleton {use : NativeType → Position → String → Emit Marshalled}
    (given tag name : String) {t : NativeType} {r : TypeRef} {d d' : Draft}
    (huse : use t .field (given ++ "_" ++ placeName name "Anonymous" 0)
      { d with subject := some (.definedType given) } = some (.plain r, d')) :
    recordDecl use given .struct ⟨tag, [⟨name, t⟩]⟩ d =
      some (⟨given, [layout .struct false],
        .record [⟨placeName name "Anonymous" 0, r, [], none, false⟩]⟩,
        { d' with subject := d.subject }) := by
  have hsubject : (get : Emit Draft) d = some (d, d) := rfl
  have hfields : emitFields use .struct given 0 [⟨name, t⟩]
      { d with subject := some (.definedType given) } =
        some ([(⟨placeName name "Anonymous" 0, r, [], none, false⟩, false)], d') := by
    rw [emitFields, emitField, Emit.bind_eq ((Emit.bind_eq huse).trans rfl)]
    rfl
  rw [recordDecl, Emit.bind_eq hsubject, Emit.bind_eq rfl, Emit.bind_eq hfields]
  rfl

theorem marshal_innerPoint (s : Store) (depth : Nat) (place : String) :
    marshalWithin .standard s (depth + 2) (.record .struct innerPoint) .field place outerDraft =
      some (.plain (.named "Pt_2"), ⟨#[innerDecl], pointsTaken, ∅, some (.definedType "Pt"),
        [Draft.renamed "Pt" "Pt_2"], []⟩) := by
  have hclaim : Draft.claim "Pt" (.record .struct innerPoint) outerDraft =
      (("Pt_2", true), ⟨#[], pointsTaken, ∅, some (.definedType "Pt"),
        [Draft.renamed "Pt" "Pt_2"], []⟩) := by
    have hdiffer : (NativeType.record .struct outerPoint).same (.record .struct innerPoint) = false := by
      decide
    have hoffer : "Pt_" ++ Nat.repr 2 = "Pt_2" := by decide
    simp [Draft.claim, Draft.choose, Draft.offer, Draft.renamed, Std.HashMap.size_insert, hdiffer,
      hoffer, outerDraft, pointsTaken]
  have hfield : ∀ place d,
      marshalWithin .standard s (depth + 1) (.builtin ⟨.int32, false⟩) .field place d =
        some (.plain (.primitive .int32), d) := by
    intro place d
    rw [marshalWithin, marshalStep, NativeType.canonical, NativeType.canonicalFrom]
    rfl
  have hrecord : emitRecord (marshalWithin .standard s (depth + 1)) "Pt" .struct innerPoint outerDraft =
      some (.named "Pt_2", ⟨#[innerDecl], pointsTaken, ∅, some (.definedType "Pt"),
        [Draft.renamed "Pt" "Pt_2"], []⟩) := by
    rw [emitRecord, declareOnce, Emit.bind_eq (congrArg some hclaim)]
    exact Emit.bind_eq (recordDecl_singleton "Pt_2" "Pt" "x" (hfield _ _))
  have hcanonical : (NativeType.record .struct innerPoint).canonical s =
      .of (.structural (.record .struct innerPoint)) := by
    simp only [NativeType.canonical, NativeType.canonicalFrom]
  rw [marshalWithin, marshalStep, hcanonical]
  exact Emit.bind_eq hrecord

theorem emitWithin_nestedPoints : Store.emitWithin nestedPoints.depthBound .standard nestedPoints =
    some ⟨⟨[innerDecl, outerDecl]⟩, [Draft.renamed "Pt" "Pt_2"], []⟩ := by
  obtain ⟨depth, hdepth⟩ : ∃ depth, nestedPoints.depthBound = depth + 2 := by
    have hthree : 3 ≤ nestedPoints.nodeCount + 3 := Nat.le_add_left ..
    have hbound : 3 * 3 * 3 ≤ nestedPoints.depthBound :=
      Nat.mul_le_mul (Nat.mul_le_mul hthree hthree) hthree
    exact Nat.exists_eq_add_of_le' (Nat.le_trans (by decide) hbound)
  have hclaim : Draft.claim "Pt" (.record .struct outerPoint) .empty =
      (("Pt", true), { outerDraft with subject := none }) :=
    Draft.claim_empty ..
  have hrecord : emitRecord (marshalWithin .standard nestedPoints (depth + 2)) "Pt" .struct outerPoint
      .empty = some (.named "Pt", ⟨#[innerDecl, outerDecl], pointsTaken, ∅, none,
        [Draft.renamed "Pt" "Pt_2"], []⟩) := by
    have hdecl := recordDecl_singleton (d := { outerDraft with subject := none }) "Pt" "Pt" "p"
      (marshal_innerPoint nestedPoints depth "Pt_p")
    rw [emitRecord, declareOnce, Emit.bind_eq (congrArg some hclaim)]
    exact Emit.bind_eq hdecl
  have hrun : (emitStore .standard nestedPoints (marshalWithin .standard nestedPoints (depth + 2))).run
      .empty = some ([], ⟨#[innerDecl, outerDecl], pointsTaken, ∅, none,
        [Draft.renamed "Pt" "Pt_2"], []⟩) :=
    (Emit.bind_eq (Emit.bind_eq (Emit.bind_eq hrecord))).trans rfl
  rw [hdepth, Store.emitWithin, hrun]
  rfl

theorem emit?_nestedPoints : nestedPoints.emit? .standard =
    some ⟨⟨[innerDecl, outerDecl]⟩, [Draft.renamed "Pt" "Pt_2"], []⟩ := by
  rw [Store.emit?, Store.emitFrom, emitWithin_nestedPoints]

theorem Store.linked_of_nestedPoints :
    ∃ e, nestedPoints.emit? .standard = some e ∧ e.bindings.declared = ["Pt_2", "Pt"] ∧
      e.bindings.used = ["Pt_2"] ∧
      ∃ classes d,
        (emitStore .standard nestedPoints
          (marshalWithin .standard nestedPoints nestedPoints.depthBound)).run .empty =
            some (classes, d) ∧
        e.bindings = ⟨d.types.toList ++ classes⟩ ∧ Linked .standard nestedPoints d.taken e.bindings :=
  ⟨_, emit?_nestedPoints, rfl, rfl, linked_of_emitWithin emitWithin_nestedPoints⟩

end HeaderBinding
