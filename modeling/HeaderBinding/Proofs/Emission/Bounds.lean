import HeaderBinding.Proofs.Emission.Declared
import HeaderBinding.Proofs.Expr.Typing
import HeaderBinding.Proofs.Resolve.Valuation

namespace HeaderBinding

open Managed (ConstantExpr Attribute TypeDecl TypeRef Field Method)

namespace Managed

def valuesOf (attributes : List Attribute) : List ConstantExpr :=
  attributes.flatMap fun a => a.args.map (·.value)

def Method.attributeValues (m : Method) : List ConstantExpr :=
  valuesOf m.returnAttributes ++ m.params.flatMap (valuesOf ·.attributes) ++ valuesOf m.attributes

def TypeDecl.attributeValues (t : TypeDecl) : List ConstantExpr :=
  valuesOf t.attributes ++ t.fields.flatMap (valuesOf ·.attributes) ++
    (t.signature?.toList ++ t.methods).flatMap Method.attributeValues

namespace Bindings

def attributeValues (b : Bindings) : List ConstantExpr :=
  b.types.flatMap TypeDecl.attributeValues

def constantClasses (b : Bindings) : List TypeDecl :=
  b.types.filter fun t => t.isContainer && !t.fields.isEmpty

end Bindings

def TypeRef.ofLiteralType (t : LiteralType) : TypeRef :=
  match Primitive.ofLiteralType? t with
  | some p => .primitive p
  | none => .string

theorem valuesOf_append (as bs : List Attribute) : valuesOf (as ++ bs) = valuesOf as ++ valuesOf bs :=
  List.flatMap_append

end Managed

open Managed (valuesOf)

namespace Store

def Bounds (s : Store) (name : String) : Prop :=
  ∃ element rank, .array element rank (some (.constant name)) ∈ s.parts

end Store

variable {o : EmitOptions} {s : Store} {d d' : Draft} {bounds : Std.HashSet String} {cls name : String}

theorem arraySize?_eq_constant {length : Option ArrayLength} (h : arraySize? o s length = some (.constant cls name)) :
    cls = o.constantsClass ∧ length = some (.constant name) ∧ (boundValue? s name).isSome = true := by
  unfold arraySize? at h
  split at h
  · cases h
  · split at h <;> cases h
  · split at h
    · cases h
      exact ⟨rfl, rfl, ‹_›⟩
    · cases h

theorem constant_of_sizedAs {form : String} {size : ConstantExpr}
    (h : .constant cls name ∈ valuesOf [sizedAs form size]) : size = .constant cls name := by
  simpa [valuesOf, sizedAs, Marshalled.marshalAs, eq_comm] using h

theorem Known.constant {length : Option ArrayLength} {u : Marshalled} (h : Known o s length u)
    (hmem : .constant cls name ∈ valuesOf u.attributes) : arraySize? o s length = some (.constant cls name) := by
  cases h with
  | handle => cases hmem
  | builtin b =>
    unfold Marshalled.builtin at hmem
    split at hmem <;> simp [valuesOf, Marshalled.marshalAs] at hmem
  | string b _ => simp [valuesOf, Marshalled.string, Marshalled.marshalAs] at hmem
  | characters b hsize => rw [hsize, constant_of_sizedAs hmem]

theorem attributes_element_subset (u : Marshalled) : u.element.attributes ⊆ u.attributes := by
  unfold Marshalled.element
  split
  · exact List.nil_subset _
  · exact List.Subset.refl _
  · exact List.nil_subset _
  · exact List.nil_subset _

theorem Wraps.constant {z t : NativeType} {position : Position} {wrap : Marshalled → Marshalled} {u : Marshalled}
    (h : Wraps o s z t position wrap) (hmem : .constant cls name ∈ valuesOf (wrap u).attributes) :
    .constant cls name ∈ valuesOf u.attributes ∨ ∃ element rank length, z = .array element rank length ∧
      position = .field ∧ arraySize? o s length = some (.constant cls name) := by
  cases h with
  | reference z t declared =>
    obtain ⟨a, ha, hvalue⟩ := List.mem_flatMap.mp hmem
    exact .inl (List.mem_flatMap.mpr ⟨a, attributes_element_subset u ha, hvalue⟩)
  | pointer _ => cases hmem
  | array _ rank hsize =>
    exact .inr ⟨t, rank, _, rfl, rfl, hsize.trans (congrArg some (constant_of_sizedAs hmem))⟩

theorem constant_mem_fieldsOf {kind : RecordKind} {index : Nat} {ms : List (Member NativeType)} {us : List Marshalled}
    (h : .constant cls name ∈ (fieldsOf kind index ms us).flatMap (valuesOf ·.attributes)) :
    ∃ u ∈ us, .constant cls name ∈ valuesOf u.attributes := by
  induction ms generalizing index us with
  | nil => cases h
  | cons m ms ih =>
    cases us with
    | nil => cases h
    | cons u us =>
      rw [fieldsOf, List.flatMap_cons, List.mem_append] at h
      rcases h with h | h
      · rw [Managed.valuesOf_append, List.mem_append] at h
        rcases h with h | h
        · cases kind with
          | struct => cases h
          | union => simp [valuesOf, fieldOffset, ConstantExpr.ofInt32] at h
        · exact ⟨u, List.mem_cons_self .., h⟩
      · obtain ⟨v, hv, hvalue⟩ := ih h
        exact ⟨v, List.mem_cons_of_mem _ hv, hvalue⟩

theorem constant_mem_paramsOf {index : Nat} {ps : List (Parameter NativeType)} {us : List Marshalled}
    (h : .constant cls name ∈ (paramsOf index ps us).flatMap (valuesOf ·.attributes)) :
    ∃ u ∈ us, .constant cls name ∈ valuesOf u.attributes := by
  induction ps generalizing index us with
  | nil => cases h
  | cons p ps ih =>
    cases us with
    | nil => cases h
    | cons u us =>
      rw [paramsOf, List.flatMap_cons, List.mem_append] at h
      rcases h with h | h
      · exact ⟨u, List.mem_cons_self .., h⟩
      · obtain ⟨v, hv, hvalue⟩ := ih h
        exact ⟨v, List.mem_cons_of_mem _ hv, hvalue⟩

theorem constant_mem_methodOf {method : String} {params : List (Parameter NativeType)} {us : List Marshalled}
    (h : .constant cls name ∈ (methodOf method params us).attributeValues) :
    ∃ u ∈ us, .constant cls name ∈ valuesOf u.attributes := by
  cases us with
  | nil => cases h
  | cons u us =>
    unfold Method.attributeValues at h
    rw [List.mem_append, List.mem_append] at h
    rcases h with (h | h) | h
    · exact ⟨u, List.mem_cons_self .., h⟩
    · obtain ⟨v, hv, hvalue⟩ := constant_mem_paramsOf h
      exact ⟨v, List.mem_cons_of_mem _ hv, hvalue⟩
    · cases h

theorem constant_mem_bodyDecl {given : String} {t : NativeType} {us : List Marshalled}
    (h : .constant cls name ∈ (bodyDecl o given t us).attributeValues) :
    ∃ u ∈ us, .constant cls name ∈ valuesOf u.attributes := by
  unfold TypeDecl.attributeValues at h
  rw [List.mem_append, List.mem_append] at h
  cases t with
  | record kind body =>
    rcases h with (h | h) | h
    · simp only [bodyDecl, valuesOf, layout] at h
      split at h <;> simp at h
    · exact constant_mem_fieldsOf h
    · cases h
  | function f =>
    rcases h with (h | h) | h
    · simp only [bodyDecl, valuesOf, conventionAttributes] at h
      split at h
      · split at h <;> simp [conventionValue] at h
      · cases h
    · cases h
    · rw [List.flatMap_append, List.mem_append] at h
      rcases h with h | h
      · obtain ⟨m, hm, hvalue⟩ := List.mem_flatMap.mp h
        cases List.mem_singleton.mp hm
        exact constant_mem_methodOf hvalue
      · cases h
  | _ => simp [bodyDecl, enumDecl, TypeDecl.fields, TypeDecl.methods, TypeDecl.signature?, valuesOf] at h

theorem constant_mem_importedMethod {p : Procedure} {us : List Marshalled}
    (h : .constant cls name ∈ (importedMethod o p us).attributeValues) :
    ∃ u ∈ us, .constant cls name ∈ valuesOf u.attributes := by
  have himport : .constant cls name ∉ valuesOf [importAttribute o p] := by
    simp only [valuesOf, importAttribute]
    split <;> simp [conventionValue, ConstantExpr.ofString]
  have hmethod : .constant cls name ∈ (methodOf p.name p.params us).attributeValues := by
    unfold Method.attributeValues at h ⊢
    rw [List.mem_append] at h ⊢
    refine h.imp_right fun h => ?_
    rw [importedMethod, Managed.valuesOf_append, List.mem_append] at h
    exact h.resolve_right himport
  exact constant_mem_methodOf hmethod

theorem constant_mem_methodsOf {ps : List Procedure} {us : List Marshalled}
    (h : .constant cls name ∈ (methodsOf o ps us).flatMap Method.attributeValues) :
    ∃ u ∈ us, .constant cls name ∈ valuesOf u.attributes := by
  induction ps generalizing us with
  | nil => cases h
  | cons p ps ih =>
    rw [methodsOf, List.flatMap_cons, List.mem_append] at h
    rcases h with h | h
    · obtain ⟨u, hu, hvalue⟩ := constant_mem_importedMethod h
      exact ⟨u, List.mem_of_mem_take hu, hvalue⟩
    · obtain ⟨u, hu, hvalue⟩ := ih h
      exact ⟨u, List.mem_of_mem_drop hu, hvalue⟩

def Noted (o : EmitOptions) (bounds : Std.HashSet String) (values : List ConstantExpr) : Prop :=
  ∀ cls name, .constant cls name ∈ values → cls = o.constantsClass ∧ name ∈ bounds

structure Draft.NotesBounds (o : EmitOptions) (s : Store) (d : Draft) : Prop where
  noted : ∀ t ∈ d.types.toList, Noted o d.bounds t.attributeValues
  usable : ∀ name ∈ d.bounds, (boundValue? s name).isSome = true ∧ s.Bounds name

theorem Noted.mono {bounds' : Std.HashSet String} {values : List ConstantExpr} (h : Noted o bounds values)
    (hbounds : ∀ name ∈ bounds, name ∈ bounds') : Noted o bounds' values :=
  fun cls name hmem => ⟨(h cls name hmem).1, hbounds name (h cls name hmem).2⟩

theorem noted_of_uses {us : List Marshalled} {values : List ConstantExpr}
    (hus : ∀ u ∈ us, Noted o bounds (valuesOf u.attributes))
    (h : ∀ {cls name}, .constant cls name ∈ values → ∃ u ∈ us, .constant cls name ∈ valuesOf u.attributes) :
    Noted o bounds values := by
  intro cls name hmem
  obtain ⟨u, hu, hvalue⟩ := h hmem
  exact hus u hu cls name hvalue

theorem noteLength_cases (s : Store) (length : Option ArrayLength) (d : Draft) :
    (noteLength s length d).types = d.types ∧ ((noteLength s length d).bounds = d.bounds ∨
      ∃ name, length = some (.constant name) ∧ (boundValue? s name).isSome = true ∧
        (noteLength s length d).bounds = d.bounds.insert name) := by
  unfold noteLength
  split
  · rename_i _ name
    split
    · exact ⟨rfl, .inr ⟨name, rfl, ‹_›, rfl⟩⟩
    · exact ⟨rfl, .inl rfl⟩
  · exact ⟨rfl, .inl rfl⟩

theorem mem_bounds_noteLength {length : Option ArrayLength} (h : name ∈ d.bounds) :
    name ∈ (noteLength s length d).bounds := by
  rcases (noteLength_cases s length d).2 with heq | ⟨_, -, -, heq⟩
  · rwa [heq]
  · rw [heq, Std.HashSet.mem_insert]
    exact .inr h

theorem mem_bounds_of_arraySize? {length : Option ArrayLength}
    (h : arraySize? o s length = some (.constant cls name)) :
    cls = o.constantsClass ∧ name ∈ (noteLength s length d).bounds := by
  obtain ⟨hcls, rfl, husable⟩ := arraySize?_eq_constant h
  rw [noteLength_of_bound s husable]
  exact ⟨hcls, Std.HashSet.mem_insert_self⟩

theorem Site.bounds_of_length? {x : Site} (hx : s.Covers x.type) (h : x.length? s = some (.constant name)) :
    s.Bounds name := by
  unfold Site.length? at h
  split at h
  · rename_i element rank length hdenoted _
    subst h
    have hcovers := Store.Covers.of_leads (leads_canonicalFrom s .nothing x.type) hx hdenoted
    exact ⟨element, rank, hcovers.mem_parts⟩
  · cases h

namespace Draft.NotesBounds

theorem congr (h : d.NotesBounds o s) (htypes : d'.types = d.types) (hbounds : d'.bounds = d.bounds) :
    d'.NotesBounds o s where
  noted := by
    rw [htypes, hbounds]
    exact h.noted
  usable := by
    rw [hbounds]
    exact h.usable

theorem note {j : Job} (h : d.NotesBounds o s) (hj : j.Over s.Covers) : (j.note s d).NotesBounds o s := by
  cases j with
  | declare name t => exact h
  | use x =>
    have hmono : ∀ name ∈ d.bounds, name ∈ (noteLength s (x.length? s) d).bounds := fun _ => mem_bounds_noteLength
    obtain ⟨htypes, hbounds⟩ := noteLength_cases s (x.length? s) d
    constructor
    · intro t ht
      refine (h.noted t ?_).mono hmono
      rwa [Job.note, htypes] at ht
    · intro name hname
      rw [Job.note] at hname
      rcases hbounds with heq | ⟨bound, hlength, husable, heq⟩
      · rw [heq] at hname
        exact h.usable name hname
      · rw [heq, Std.HashSet.mem_insert, beq_iff_eq] at hname
        rcases hname with rfl | hname
        · exact ⟨husable, Site.bounds_of_length? hj hlength⟩
        · exact h.usable name hname

theorem declare {t : TypeDecl} (h : d.NotesBounds o s) (ht : Noted o d.bounds t.attributeValues) :
    (d.declare t).NotesBounds o s where
  noted u hu := by
    rw [Draft.declare, Array.toList_push] at hu
    rcases List.mem_append.mp hu with hu | hu
    · exact h.noted u hu
    · rw [List.mem_singleton.mp hu]
      exact ht
  usable := h.usable

end Draft.NotesBounds

theorem Job.mem_bounds_note {j : Job} (h : name ∈ d.bounds) : name ∈ (j.note s d).bounds := by
  cases j with
  | declare _ _ => exact h
  | use x => exact mem_bounds_noteLength h

theorem Job.noted_of_leaf {j : Job} {u : Marshalled} (h : j.plan o s = .leaf u) (d : Draft) :
    Noted o (j.note s d).bounds (valuesOf u.attributes) := by
  cases j with
  | declare _ _ => cases h
  | use x =>
    intro cls name hmem
    have hforesees := x.foresees o s
    rw [Job.plan] at h
    rw [h] at hforesees
    cases hforesees with
    | leaf hknown => exact mem_bounds_of_arraySize? (hknown.constant hmem)

theorem Job.noted_of_inner {j : Job} {x : Site} {wrap : Marshalled → Marshalled} (h : j.plan o s = .inner x wrap)
    (d : Draft) {u : Marshalled} (hu : Noted o bounds (valuesOf u.attributes))
    (hbounds : ∀ name ∈ (j.note s d).bounds, name ∈ bounds) : Noted o bounds (valuesOf (wrap u).attributes) := by
  cases j with
  | declare _ _ => cases h
  | use y =>
    intro cls name hmem
    have hforesees := y.foresees o s
    rw [Job.plan] at h
    rw [h] at hforesees
    cases hforesees with
    | inner hz ht hwraps =>
      rcases hwraps.constant hmem with hmem | ⟨element, rank, length, rfl, hposition, hsize⟩
      · exact hu cls name hmem
      · have hlength : y.length? s = length := by
          unfold Site.length?
          rw [hz, hposition]
        obtain ⟨hcls, hname⟩ := mem_bounds_of_arraySize? (d := d) (hlength ▸ hsize)
        exact ⟨hcls, hbounds name hname⟩

theorem Runs.notesBounds {js : List Job} {us : List Marshalled} (h : Runs o s d js us d')
    (hjs : ∀ j ∈ js, j.Over s.Covers) (hd : d.NotesBounds o s) :
    d'.NotesBounds o s ∧ (∀ name ∈ d.bounds, name ∈ d'.bounds) ∧
      ∀ u ∈ us, Noted o d'.bounds (valuesOf u.attributes) := by
  -- Bounds are noted before they are referred to, and stay noted: what a rule notes is carried over the rest of the
  -- run.
  induction h with
  | nil d => exact ⟨hd, fun _ h => h, nofun⟩
  | leaf hplan _ ih =>
    obtain ⟨hj, hjs⟩ := List.forall_mem_cons.mp hjs
    obtain ⟨hd', hmono, hus⟩ := ih hjs (hd.note hj)
    exact ⟨hd', fun name hname => hmono name (Job.mem_bounds_note hname),
      List.forall_mem_cons.mpr ⟨(Job.noted_of_leaf hplan _).mono hmono, hus⟩⟩
  | inner hplan _ _ ihx ih =>
    obtain ⟨hj, hjs⟩ := List.forall_mem_cons.mp hjs
    have hx := s.closed_covers.plan hj (o := o)
    rw [hplan] at hx
    obtain ⟨hd₁, hmono₁, hu⟩ := ihx (List.forall_mem_singleton.mpr hx) (hd.note hj)
    obtain ⟨hd', hmono, hus⟩ := ih hjs hd₁
    have hwrap := Job.noted_of_inner hplan _ (hu _ (List.mem_singleton_self _)) hmono₁
    exact ⟨hd', fun name hname => hmono name (hmono₁ name (Job.mem_bounds_note hname)),
      List.forall_mem_cons.mpr ⟨hwrap.mono hmono, hus⟩⟩
  | held hplan hclaim _ ih =>
    obtain ⟨-, hjs⟩ := List.forall_mem_cons.mp hjs
    obtain ⟨hd', hmono, hus⟩ := ih hjs hd
    exact ⟨hd', hmono, List.forall_mem_cons.mpr ⟨nofun, hus⟩⟩
  | @fresh d d₁ d₂ d' j js name given t vs us hplan hclaim _ _ ihbody ih =>
    obtain ⟨hj, hjs⟩ := List.forall_mem_cons.mp hjs
    have ht := s.closed_covers.plan hj (o := o)
    rw [hplan] at ht
    have htypes := Draft.types_claim name t d
    have hbounds := Draft.bounds_claim name t d
    rw [hclaim] at htypes hbounds
    have hentered := (hd.congr htypes hbounds).congr (Draft.types_enter given t d₁) (Draft.bounds_enter given t d₁)
    obtain ⟨hd₂, hmono₂, hvs⟩ := ihbody (over_bodySites ht) hentered
    have hleft := hd₂.congr (Draft.types_leave t d₁ d₂) (Draft.bounds_leave t d₁ d₂)
    have hdecl : Noted o (Draft.leave t d₁ d₂).bounds (bodyDecl o given t vs).attributeValues := by
      rw [Draft.bounds_leave]
      exact noted_of_uses hvs constant_mem_bodyDecl
    obtain ⟨hd', hmono, hus⟩ := ih hjs (hleft.declare hdecl)
    refine ⟨hd', fun n hn => hmono n ?_, List.forall_mem_cons.mpr ⟨nofun, hus⟩⟩
    rw [Draft.bounds_declare_leave]
    refine hmono₂ n ?_
    rw [Draft.bounds_enter, hbounds]
    exact hn

theorem filter_fieldsOfConstants (bounds : Std.HashSet String) {cs : List Constant}
    (hnames : (cs.map Declaration.name).Nodup) {c : Constant} (hc : c ∈ cs) {v : TypedLiteral} (hv : c.value = some v) :
    (fieldsOfConstants bounds cs).filter (·.name == c.name) = [constantField (bounds.contains c.name) c.name v] := by
  have hnone : ∀ cs' : List Constant, c.name ∉ cs'.map Declaration.name →
      (fieldsOfConstants bounds cs').filter (·.name == c.name) = [] := by
    intro cs' hnotin
    refine List.filter_eq_nil_iff.mpr fun f hf heq => hnotin ?_
    obtain ⟨c', hc', hfield⟩ := List.mem_filterMap.mp hf
    obtain ⟨w, -, rfl⟩ := Option.map_eq_some_iff.mp hfield
    exact List.mem_map.mpr ⟨c', hc', eq_of_beq heq⟩
  induction cs with
  | nil => cases hc
  | cons c' cs ih =>
    obtain ⟨hnotin, hnames⟩ := List.nodup_cons.mp hnames
    rcases List.mem_cons.mp hc with rfl | hc
    · have hself : (constantField (bounds.contains c.name) c.name v).name == c.name := BEq.rfl
      rw [fieldsOfConstants, List.filterMap_cons_some (by rw [hv]; rfl), List.filter_cons, if_pos hself]
      exact congrArg _ (hnone cs hnotin)
    · have hne : c'.name ≠ c.name := fun heq => hnotin (List.mem_map.mpr ⟨c, hc, heq.symm⟩)
      cases hvalue : c'.value with
      | none =>
        rw [fieldsOfConstants, List.filterMap_cons_none (by rw [hvalue]; rfl)]
        exact ih hnames hc
      | some w =>
        have hother : ¬((constantField (bounds.contains c'.name) c'.name w).name == c.name) = true :=
          fun heq => hne (eq_of_beq heq)
        rw [fieldsOfConstants, List.filterMap_cons_some (by rw [hvalue]; rfl), List.filter_cons, if_neg hother]
        exact ih hnames hc

theorem constantClasses_emission (hd : d.Consistent o s []) (us : List Marshalled) :
    (s.emission o us d).bindings.constantClasses =
      container o.constantsClass (fieldsOfConstants d.bounds s.constants.toList) [] := by
  have htypes : d.types.toList.filter (fun t => t.isContainer && !t.fields.isEmpty) = [] := by
    refine List.filter_eq_nil_iff.mpr fun t ht => ?_
    rw [hd.not_isContainer ht]
    nofun
  have hmethods (methods : List Method) : (container o.methodsClass [] methods).filter
      (fun t => t.isContainer && !t.fields.isEmpty) = [] := by
    refine List.filter_eq_nil_iff.mpr fun t ht => ?_
    rw [container_cases ht]
    nofun
  have hconstants (fields : List Field) : (container o.constantsClass fields []).filter
      (fun t => t.isContainer && !t.fields.isEmpty) = container o.constantsClass fields [] := by
    refine List.filter_eq_self.mpr fun t ht => ?_
    have hnonempty : fields ≠ [] := by
      rintro rfl
      cases ht
    rw [container_cases ht]
    cases fields with
    | nil => exact absurd rfl hnonempty
    | cons f fields => rfl
  unfold Managed.Bindings.constantClasses Store.emission
  dsimp only
  rw [List.filter_append, List.filter_append, htypes, hconstants, hmethods, List.nil_append, List.append_nil]

structure RefersToBounds (o : EmitOptions) (s : Store) (b : Managed.Bindings) : Prop where
  referred : ∀ cls name, .constant cls name ∈ b.attributeValues →
    ∃ t, b.constantClasses = [t] ∧ t.name = cls ∧ cls = o.constantsClass ∧
      ∃ c ∈ s.constants.toList, c.name = name ∧ ∃ v w n, c.value = some v ∧ v.literal.toInt? = some n ∧
        w.literal.toInt? = some n ∧ w.type = .int32 ∧
        t.fields.filter (·.name == name) = [⟨name, .primitive .int32, [], some (.literal w), true⟩]
  retyped : ∀ t ∈ b.constantClasses, ∀ f ∈ t.fields, ∀ c ∈ s.constants.toList, c.name = f.name →
    ∀ v, c.value = some v → f.type ≠ .ofLiteralType v.type → s.Bounds c.name

theorem constantField_of_bound {v w : TypedLiteral} (h : v.narrowedTo? .int32 = some w) (name : String) :
    constantField true name v = ⟨name, .primitive .int32, [], some (.literal w), true⟩ := by
  unfold constantField
  dsimp only
  rw [if_pos rfl, h, Option.getD_some, (TypedLiteral.toInt?_of_narrowedTo? h).1]
  rfl

theorem not_mem_attributeValues_constants (value : ConstantExpr) (cs : List Constant) {t : TypeDecl}
    (ht : t ∈ container cls (fieldsOfConstants bounds cs) []) : value ∉ t.attributeValues := by
  rw [container_cases ht]
  intro hmem
  unfold TypeDecl.attributeValues at hmem
  rw [List.mem_append, List.mem_append] at hmem
  rcases hmem with (hmem | hmem) | hmem
  · cases hmem
  · obtain ⟨f, hf, hvalue⟩ := List.mem_flatMap.mp hmem
    obtain ⟨c, -, hfield⟩ := List.mem_filterMap.mp hf
    obtain ⟨v, -, rfl⟩ := Option.map_eq_some_iff.mp hfield
    cases hvalue
  · cases hmem

theorem mem_attributeValues_methods {value : ConstantExpr} {methods : List Method} {t : TypeDecl}
    (ht : t ∈ container cls [] methods) (hvalue : value ∈ t.attributeValues) :
    value ∈ methods.flatMap Method.attributeValues := by
  rw [container_cases ht] at hvalue
  exact hvalue

namespace Store

theorem declares_bound (hs : s.constants.Indexed) (us : List Marshalled) (hd : d.Consistent o s [])
    (hname : name ∈ d.bounds) (husable : (boundValue? s name).isSome = true) :
    ∃ t, (s.emission o us d).bindings.constantClasses = [t] ∧ t.name = o.constantsClass ∧
      ∃ c ∈ s.constants.toList, c.name = name ∧ ∃ v w n, c.value = some v ∧ v.literal.toInt? = some n ∧
        w.literal.toInt? = some n ∧ w.type = .int32 ∧
        t.fields.filter (·.name == name) = [⟨name, .primitive .int32, [], some (.literal w), true⟩] := by
  obtain ⟨w, hw⟩ := Option.isSome_iff_exists.mp husable
  unfold boundValue? at hw
  obtain ⟨c, hc, hvalue⟩ := Option.bind_eq_some_iff.mp hw
  obtain ⟨v, hv, hnarrowed⟩ := Option.bind_eq_some_iff.mp hvalue
  obtain ⟨hmem, rfl⟩ := Table.mem_of_get?_eq_some hc
  obtain ⟨htype, n, hn, hn'⟩ := TypedLiteral.toInt?_of_narrowedTo? hnarrowed
  have hfield := filter_fieldsOfConstants d.bounds hs.nodup hmem hv
  have hcontains : d.bounds.contains c.name = true := hname
  rw [hcontains, constantField_of_bound hnarrowed] at hfield
  refine ⟨⟨o.constantsClass, [], .container (fieldsOfConstants d.bounds s.constants.toList) []⟩, ?_, rfl, c, hmem, rfl,
    v, w, n, hv, hn, hn', htype, hfield⟩
  rw [constantClasses_emission hd]
  unfold container
  rw [if_neg]
  intro hempty
  rw [Bool.and_eq_true, List.isEmpty_iff] at hempty
  rw [hempty.1] at hfield
  cases hfield

theorem mem_bounds_of_type_ne {cs : List Constant} (hnames : (cs.map Declaration.name).Nodup) {f : Field}
    (hf : f ∈ fieldsOfConstants bounds cs) {c : Constant} (hc : c ∈ cs) (hname : c.name = f.name) {v : TypedLiteral}
    (hv : c.value = some v) (htype : f.type ≠ .ofLiteralType v.type) : c.name ∈ bounds := by
  have hfilter := filter_fieldsOfConstants bounds hnames hc hv
  have hmem : f ∈ (fieldsOfConstants bounds cs).filter (·.name == c.name) :=
    List.mem_filter.mpr ⟨hf, beq_iff_eq.mpr hname.symm⟩
  rw [hfilter, List.mem_singleton] at hmem
  subst hmem
  cases hcontains : bounds.contains c.name with
  | true => exact hcontains
  | false =>
    rw [hcontains] at htype
    exact absurd rfl htype

theorem refersToBounds_of_emit? {e : Emission} (hs : s.constants.Indexed) (h : s.emit? o = some e) :
    RefersToBounds o s e.bindings := by
  obtain ⟨us, vs, d, -, hrun, rfl⟩ := emit?_eq_some_iff_runs.mp h
  have hempty : Draft.empty.NotesBounds o s := ⟨nofun, fun name hname => absurd hname Std.HashSet.not_mem_empty⟩
  obtain ⟨hnotes, -, hus⟩ := hrun.notesBounds (fun j hj => job_over_covers hj) hempty
  have hd := hrun.consistent (fun j hj => job_isProper hj) (Draft.consistent_empty o s)
  constructor
  · intro cls name hmem
    have hnoted : cls = o.constantsClass ∧ name ∈ d.bounds := by
      obtain ⟨t, ht, hvalue⟩ := List.mem_flatMap.mp hmem
      rcases List.mem_append.mp ht with ht | ht
      · exact hnotes.noted t ht cls name hvalue
      · rcases List.mem_append.mp ht with ht | ht
        · exact absurd hvalue (not_mem_attributeValues_constants _ _ ht)
        · obtain ⟨u, hu, hvalue⟩ := constant_mem_methodsOf (mem_attributeValues_methods ht hvalue)
          exact hus u (List.mem_append_right _ hu) cls name hvalue
    obtain ⟨rfl, hname⟩ := hnoted
    obtain ⟨t, hclass, hclsname, hfield⟩ := declares_bound hs vs hd hname (hnotes.usable name hname).1
    exact ⟨t, hclass, hclsname, rfl, hfield⟩
  · intro t ht f hf c hc hname v hv htype
    rw [constantClasses_emission hd] at ht
    rw [container_cases ht] at hf
    exact (hnotes.usable _ (mem_bounds_of_type_ne hs.nodup hf hc hname hv htype)).2

def bufferSize : Constant :=
  ⟨"N", "8", .preprocessor, some ⟨.int 8, .sbyte⟩⟩

def buffer : NativeType :=
  .record .struct ⟨"Buf", [⟨"data", .array (.builtin ⟨.int32, false⟩) 1 (some (.constant "N"))⟩]⟩

def bufferStore : Store :=
  { ofConstants [bufferSize] with
    definitions :=
      ⟨#[.record .struct ⟨"Buf", [⟨"data", .array (.builtin ⟨.int32, false⟩) 1 (some (.constant "N"))⟩]⟩], ∅⟩ }

theorem indexed_bufferStore : bufferStore.constants.Indexed :=
  Table.indexed_indexOf [bufferSize] (by decide)

theorem boundValue?_bufferStore : boundValue? bufferStore "N" = some ⟨.int 8, .int32⟩ := by
  unfold boundValue?
  rw [indexed_bufferStore.get?_eq]
  rfl

def bufferUse : Marshalled :=
  ⟨.array (.primitive .int32), [sizedAs "ByValArray" (.constant "NativeConstants" "N")], none, false⟩

theorem run_bufferStore : ∃ d, Runs .standard bufferStore .empty bufferStore.jobs [.plain (.named "Buf")] d ∧
    d.types.toList = [bodyDecl .standard "Buf" buffer [bufferUse]] := by
  have hsize : arraySize? .standard bufferStore (some (.constant "N")) = some (.constant "NativeConstants" "N") := by
    simp [arraySize?, boundValue?_bufferStore, EmitOptions.standard]
  have hplan : Job.plan .standard bufferStore
      (.use ⟨.array (.builtin ⟨.int32, false⟩) 1 (some (.constant "N")), .field, "Buf_data"⟩) =
        .inner ⟨.builtin ⟨.int32, false⟩, .field, "Buf_data"⟩
          fun u => ⟨.array u.type, [sizedAs "ByValArray" (.constant "NativeConstants" "N")], none, false⟩ := by
    simp only [Job.plan, Site.plan, Site.canonical, NativeType.canonical, NativeType.canonicalFrom, Canonical.of, hsize,
      arrayPlan]
    rfl
  have hleaf : Job.plan .standard bufferStore (.use ⟨.builtin ⟨.int32, false⟩, .field, "Buf_data"⟩) =
      .leaf (.plain (.primitive .int32)) :=
    Job.plan_builtin ..
  refine ⟨_, .fresh rfl (Draft.claim_empty ..) (.inner hplan (.leaf hleaf (.nil _)) (.nil _)) (.nil _), ?_⟩
  rw [Draft.declare, Array.toList_push, Draft.types_leave, Job.types_note, Job.types_note, Draft.types_enter]
  rfl

theorem refersToBounds_of_bufferStore :
    ∃ e, bufferStore.emit? .standard = some e ∧
      .constant "NativeConstants" "N" ∈ e.bindings.attributeValues ∧
      RefersToBounds .standard bufferStore e.bindings := by
  obtain ⟨d, hrun, htypes⟩ := run_bufferStore
  have hemit : bufferStore.emit? .standard = some (bufferStore.emission .standard [] d) :=
    emit?_eq_some_iff_runs.mpr ⟨[.plain (.named "Buf")], [], d, rfl, hrun, rfl⟩
  refine ⟨_, hemit, ?_, refersToBounds_of_emit? indexed_bufferStore hemit⟩
  refine List.mem_flatMap.mpr ⟨bodyDecl .standard "Buf" buffer [bufferUse], ?_, ?_⟩
  · refine List.mem_append_left _ ?_
    rw [htypes]
    exact List.mem_singleton_self _
  · decide

end Store

end HeaderBinding
