import HeaderBinding.Proofs.Emission.Bounds
import HeaderBinding.Proofs.Native.Equivalence

namespace HeaderBinding

open Managed (ConstantExpr Attribute TypeDecl TypeRef Field Method EnumMember Param)

def Redeclares (v w : TypedLiteral) : Prop :=
  w = v ∨ ∃ n, v.literal.toInt? = some n ∧ w.literal.toInt? = some n

def DeclaresConstant (c : Constant) (f : Field) : Prop :=
  ∃ v w, c.value = some v ∧ f = ⟨c.name, .ofLiteralType w.type, [], some (.literal w), true⟩ ∧
    Redeclares v w ∧ (w = v ∨ w.type = .int32)

def DeclaresEnumerator (m : Enumerator) (n : EnumMember) : Prop :=
  n.name = m.name ∧ ∃ v, m.value = some v ∧ Redeclares v n.value

def paramNames (ps : List (Parameter NativeType)) : List String :=
  ps.zipIdx.map fun (p, i) => if p.name = "" then "param" ++ toString (i + 1) else p.name

def fieldNames (ms : List (Member NativeType)) : List String :=
  ms.zipIdx.map fun (m, i) => if m.name = "" then "Anonymous" ++ toString (i + 1) else m.name

def DeclaresBody : NativeType → TypeDecl → Prop
  | .record _ r, t => ∃ fields, t.body = .record fields ∧ fields.map (·.name) = fieldNames r.members
  | .enumeration e, t => ∃ underlying members, t.body = .enumeration underlying members ∧
      List.Forall₂ DeclaresEnumerator (e.members.filter (·.value.isSome)) members
  | .function f, t => ∃ m, t.body = .delegate m ∧ m.params.map (·.name) = paramNames f.params
  | _, _ => False

structure ImportsProcedure (o : EmitOptions) (p : Procedure) (m : Method) : Prop where
  name : m.name = p.name
  params : m.params.map (·.name) = paramNames p.params
  imported : m.attributes = [⟨"DllImport",
    [⟨none, .literal ⟨.string (p.module.getD o.unknownModule), .string⟩⟩,
      ⟨some "EntryPoint", .literal ⟨.string p.name, .string⟩⟩] ++
      if p.convention.getD o.convention = o.convention then []
      else [⟨some "CallingConvention",
        .enumMember "CallingConvention" (p.convention.getD o.convention).managedName⟩]⟩]

def unvaluedIn (given : String) : NativeType → List SkippedItem
  | .enumeration e => (e.members.filter (·.value.isNone)).map fun m =>
    ⟨⟨.definedType, given⟩, some m.name, "value never resolved"⟩
  | _ => []

def skippedIn (taken : Taken) (t : TypeDecl) : List SkippedItem :=
  (taken[t.name]?).elim [] (unvaluedIn t.name)

structure Emission.Complete (o : EmitOptions) (s : Store) (taken : Taken) (e : Emission) : Prop where
  classes : ∃ fields methods,
    e.bindings.types = e.bindings.declarations ++
      ((if fields = [] then [] else [⟨o.constantsClass, [], .container fields []⟩]) ++
        if methods = [] then [] else [⟨o.methodsClass, [], .container [] methods⟩]) ∧
    List.Forall₂ DeclaresConstant (s.constants.toList.filter (·.value.isSome)) fields ∧
    List.Forall₂ (ImportsProcedure o) s.procedures.toList methods
  nodup : e.bindings.declared.Nodup
  declared : ∀ name, name ∈ e.bindings.declared ↔ name ∈ taken
  bodies : ∀ t ∈ e.bindings.declarations, ∃ body, taken[t.name]? = some body ∧ DeclaresBody body t
  definitions : ∀ d ∈ s.definitions.toList, d.name ≠ "" →
    ∃ t, e.bindings.declarations.filter (fun t => (taken[t.name]?).any (·.same d.toType)) = [t]
  skipped : e.skipped = e.bindings.declarations.flatMap (skippedIn taken) ++
    (s.constants.toList.filter (·.value.isNone)).map fun c => ⟨⟨.constant, c.name⟩, none, "value never resolved"⟩

variable {o : EmitOptions} {s : Store} {d d' : Draft} {taken : Taken}

theorem forall₂_fieldsOfConstants (bounds : Std.HashSet String) (cs : List Constant) :
    List.Forall₂ DeclaresConstant (cs.filter (·.value.isSome)) (fieldsOfConstants bounds cs) := by
  induction cs with
  | nil => exact .nil
  | cons c cs ih =>
    cases hvalue : c.value with
    | none =>
      rw [List.filter_cons_of_neg (by simp [hvalue]), fieldsOfConstants,
        List.filterMap_cons_none (by rw [hvalue]; rfl)]
      exact ih
    | some v =>
      rw [List.filter_cons_of_pos (by simp [hvalue]), fieldsOfConstants,
        List.filterMap_cons_some (by rw [hvalue]; rfl)]
      refine .cons ⟨v, _, hvalue, rfl, ?_⟩ ih
      cases bounds.contains c.name with
      | false => exact ⟨.inl rfl, .inl rfl⟩
      | true =>
        cases hnarrowed : v.narrowedTo? .int32 with
        | none => exact ⟨.inl rfl, .inl rfl⟩
        | some w =>
          obtain ⟨htype, hvalue⟩ := TypedLiteral.toInt?_of_narrowedTo? hnarrowed
          exact ⟨.inr hvalue, .inr htype⟩

theorem placeName_eq (name other : String) (index : Nat) :
    placeName name other index = if name = "" then other ++ toString (index + 1) else name := by
  simp [placeName]

theorem container_fields (name : String) (fields : List Field) :
    container name fields [] = if fields = [] then [] else [⟨name, [], .container fields []⟩] := by
  cases fields <;> rfl

theorem container_methods (name : String) (methods : List Method) :
    container name [] methods = if methods = [] then [] else [⟨name, [], .container [] methods⟩] := by
  cases methods <;> rfl

theorem names_paramsOf {index : Nat} {ps : List (Parameter NativeType)} {us : List Marshalled}
    (h : us.length = ps.length) :
    (paramsOf index ps us).map (·.name) =
      (ps.zipIdx index).map fun (p, i) => if p.name = "" then "param" ++ toString (i + 1) else p.name := by
  simp only [← placeName_eq]
  induction ps generalizing index us with
  | nil => rfl
  | cons p ps ih =>
    cases us with
    | nil => cases h
    | cons u us => exact congrArg (_ :: ·) (ih (Nat.succ.inj h))

theorem names_fieldsOf {kind : RecordKind} {index : Nat} {ms : List (Member NativeType)} {us : List Marshalled}
    (h : us.length = ms.length) :
    (fieldsOf kind index ms us).map (·.name) =
      (ms.zipIdx index).map fun (m, i) => if m.name = "" then "Anonymous" ++ toString (i + 1) else m.name := by
  simp only [← placeName_eq]
  induction ms generalizing index us with
  | nil => rfl
  | cons m ms ih =>
    cases us with
    | nil => cases h
    | cons u us => exact congrArg (_ :: ·) (ih (Nat.succ.inj h))

theorem length_fieldSites (record : String) (index : Nat) (ms : List (Member NativeType)) :
    (fieldSites record index ms).length = ms.length := by
  induction ms generalizing index with
  | nil => rfl
  | cons m ms ih => exact congrArg Nat.succ (ih (index + 1))

theorem length_paramSites (method : String) (index : Nat) (ps : List (Parameter NativeType)) :
    (paramSites method index ps).length = ps.length := by
  induction ps generalizing index with
  | nil => rfl
  | cons p ps ih => exact congrArg Nat.succ (ih (index + 1))

theorem names_methodOf {name : String} {returns : NativeType} {ps : List (Parameter NativeType)} {us : List Marshalled}
    (h : us.length = (methodSites name returns ps).length) :
    (methodOf name ps us).params.map (·.name) = paramNames ps ∧ (methodOf name ps us).attributes = [] := by
  cases us with
  | nil => cases h
  | cons u us =>
    rw [methodSites, List.length_cons, List.length_cons, length_paramSites] at h
    exact ⟨names_paramsOf (Nat.succ.inj h), rfl⟩

theorem importsProcedure {p : Procedure} {us : List Marshalled} (h : us.length = p.sites.length) :
    ImportsProcedure o p (importedMethod o p us) := by
  obtain ⟨hparams, hattributes⟩ := names_methodOf h
  refine ⟨?_, hparams, ?_⟩
  · cases us <;> rfl
  · rw [importedMethod, hattributes]
    rfl

theorem forall₂_methodsOf {ps : List Procedure} {us : List Marshalled}
    (h : us.length = (ps.flatMap Procedure.sites).length) :
    List.Forall₂ (ImportsProcedure o) ps (methodsOf o ps us) := by
  induction ps generalizing us with
  | nil => exact .nil
  | cons p ps ih =>
    rw [List.flatMap_cons, List.length_append] at h
    refine .cons (importsProcedure ?_) (ih ?_)
    · rw [List.length_take]
      omega
    · rw [List.length_drop]
      omega

theorem forall₂_filterMap {α β γ : Type} {P : α → γ → Prop} {value? : α → Option β} {f : α → β → γ}
    (hP : ∀ a b, value? a = some b → P a (f a b)) (as : List α) :
    List.Forall₂ P (as.filter fun a => (value? a).isSome) (as.filterMap fun a => (value? a).map (f a)) := by
  induction as with
  | nil => exact .nil
  | cons a as ih =>
    cases hvalue : value? a with
    | none =>
      rw [List.filter_cons_of_neg (by simp [hvalue]), List.filterMap_cons_none (by rw [hvalue]; rfl)]
      exact ih
    | some b =>
      rw [List.filter_cons_of_pos (by simp [hvalue]), List.filterMap_cons_some (by rw [hvalue]; rfl)]
      exact .cons (hP a b hvalue) ih

theorem redeclares_narrowed (v : TypedLiteral) (t : LiteralType) : Redeclares v ((v.narrowedTo? t).getD v) := by
  cases hnarrowed : v.narrowedTo? t with
  | none => exact .inl rfl
  | some w => exact .inr (TypedLiteral.toInt?_of_narrowedTo? hnarrowed).2

theorem declaresBody_enumDecl (given : String) (e : Enumeration) :
    DeclaresBody (.enumeration e) (enumDecl given e) := by
  refine ⟨_, _, rfl, ?_⟩
  rw [List.map_filterMap]
  simp only [Option.map_map]
  exact forall₂_filterMap (fun m v hv => ⟨rfl, v, hv, redeclares_narrowed v _⟩) e.members

theorem declaresBody_bodyDecl {given : String} {body : NativeType} {us : List Marshalled} (hbody : body.isBody = true)
    (h : us.length = (bodySites given body).length) : DeclaresBody body (bodyDecl o given body us) := by
  cases body with
  | record kind r =>
    rw [bodySites, length_fieldSites] at h
    exact ⟨_, rfl, names_fieldsOf h⟩
  | enumeration e => exact declaresBody_enumDecl given e
  | function f => exact ⟨_, rfl, (names_methodOf h).1⟩
  | _ => cases hbody

theorem NativeType.tag_eq_of_same {t u : NativeType} (h : t.same u = true) : t.tag = u.tag := by
  have hhead := (Related.of_same h).head
  cases t <;> cases u <;> first
    | exact absurd hhead id
    | rfl
    | exact hhead.2.1
    | exact (Enumeration.same_iff.mp hhead).1
    | exact hhead.1

def Taken.Offered (taken : Taken) : Prop :=
  ∀ given body, taken[given]? = some body → body.tag ≠ "" →
    ∃ n, 1 ≤ n ∧ given = Draft.offer body.tag n ∧
      ∀ i, 1 ≤ i → i < n → ∃ held, taken[Draft.offer body.tag i]? = some held ∧ held.same body = false

theorem Taken.Offered.eq_of_same (h : taken.Offered) {given given' : String} {body body' : NativeType}
    (hbody : taken[given]? = some body) (hbody' : taken[given']? = some body') (htag : body.tag ≠ "")
    (hsame : body.same body' = true) : given = given' := by
  have htags := NativeType.tag_eq_of_same hsame
  obtain ⟨n, hn, rfl, hbefore⟩ := h given body hbody htag
  obtain ⟨n', hn', rfl, hbefore'⟩ := h given' body' hbody' (htags ▸ htag)
  rw [← htags] at hbody' hbefore' ⊢
  rcases Nat.lt_trichotomy n n' with hlt | rfl | hlt
  · obtain ⟨held, hheld, hdiffers⟩ := hbefore' n hn hlt
    obtain rfl := Option.some.inj (hheld.symm.trans hbody)
    rw [hsame] at hdiffers
    cases hdiffers
  · rfl
  · obtain ⟨held, hheld, hdiffers⟩ := hbefore n' hn' hlt
    obtain rfl := Option.some.inj (hheld.symm.trans hbody')
    rw [NativeType.same_symm hsame] at hdiffers
    cases hdiffers

structure Draft.Tallied (d : Draft) : Prop where
  named : ∀ t ∈ d.types.toList, t.name ∈ d.taken
  skipped : d.skipped = d.types.toList.flatMap (skippedIn d.taken)
  offered : d.taken.Offered

theorem skippedIn_congr {taken taken' : Taken} (h : taken.Within taken') {t : TypeDecl} (ht : t.name ∈ taken) :
    skippedIn taken' t = skippedIn taken t := by
  rw [Std.HashMap.mem_iff_isSome_getElem?, Option.isSome_iff_exists] at ht
  obtain ⟨body, hbody⟩ := ht
  unfold skippedIn
  rw [hbody, h t.name body hbody]

namespace Draft.Tallied

theorem empty : Draft.empty.Tallied where
  named := nofun
  skipped := rfl
  offered given body h := by simp [Draft.empty] at h

theorem congr (h : d.Tallied) (htypes : d'.types = d.types) (htaken : d'.taken = d.taken)
    (hskipped : d'.skipped = d.skipped) : d'.Tallied where
  named := by
    rw [htypes, htaken]
    exact h.named
  skipped := by
    rw [hskipped, htypes, htaken]
    exact h.skipped
  offered := by
    rw [htaken]
    exact h.offered

theorem claim {name given : String} {t : NativeType} (h : d.Tallied) (hname : t.tag ≠ "" → name = t.tag)
    (hclaim : Draft.claim name t d = ((given, true), d')) : d'.Tallied := by
  obtain ⟨htaken, hfree, n, hn, rfl, hbefore⟩ := Draft.claim_fresh hclaim
  have hwithin : d.taken.Within d'.taken := htaken ▸ Taken.within_insert hfree t
  have htypes := Draft.types_claim name t d
  have hskipped := Draft.skipped_claim name t d
  rw [hclaim] at htypes hskipped
  constructor
  · rw [htypes]
    exact fun u hu => hwithin.mem (h.named u hu)
  · rw [htypes, hskipped, h.skipped]
    exact List.flatMap_congr fun u hu => (skippedIn_congr hwithin (h.named u hu)).symm
  · intro other body hbody htag
    rw [htaken, Std.HashMap.getElem?_insert] at hbody
    split at hbody
    · rename_i heq
      cases hbody
      obtain rfl := hname htag
      refine ⟨n, hn, (eq_of_beq heq).symm, fun i hi hlt => ?_⟩
      obtain ⟨held, hheld, hdiffers⟩ := hbefore i hi hlt
      exact ⟨held, hwithin _ _ hheld, hdiffers⟩
    · obtain ⟨m, hm, rfl, hbefore'⟩ := h.offered other body hbody htag
      refine ⟨m, hm, rfl, fun i hi hlt => ?_⟩
      obtain ⟨held, hheld, hdiffers⟩ := hbefore' i hi hlt
      exact ⟨held, hwithin _ _ hheld, hdiffers⟩

theorem declare {t : TypeDecl} {body : NativeType} (h : d.Tallied) (hbody : d.taken[t.name]? = some body)
    {items : List SkippedItem} (hitems : items = skippedIn d.taken t) (htypes : d'.types = d.types)
    (htaken : d'.taken = d.taken) (hskipped : d'.skipped = d.skipped ++ items) : (d'.declare t).Tallied where
  named u hu := by
    rw [Draft.declare, Array.toList_push, htypes] at hu
    change u.name ∈ d'.taken
    rw [htaken]
    rcases List.mem_append.mp hu with hu | hu
    · exact h.named u hu
    · rw [List.mem_singleton.mp hu]
      exact Taken.mem_of_eq hbody
  skipped := by
    rw [Draft.declare, Array.toList_push, htypes, htaken, List.flatMap_append, List.flatMap_singleton]
    dsimp only
    rw [hskipped, h.skipped, hitems]
  offered := by
    change d'.taken.Offered
    rw [htaken]
    exact h.offered

end Draft.Tallied

theorem name_bodyDecl (o : EmitOptions) (given : String) (t : NativeType) (us : List Marshalled) :
    (bodyDecl o given t us).name = given := by
  cases t <;> rfl

theorem Runs.eq_of_nil {us : List Marshalled} (h : Runs o s d [] us d') : us = [] ∧ d' = d := by
  cases h
  exact ⟨rfl, rfl⟩

theorem Runs.tallied {js : List Job} {us : List Marshalled} (h : Runs o s d js us d') (hjs : ∀ j ∈ js, j.IsProper)
    (hd : d.Tallied) : d'.Tallied := by
  induction h with
  | nil d => exact hd
  | @leaf d d' j _ _ _ _ _ ih =>
    obtain ⟨-, hjs⟩ := List.forall_mem_cons.mp hjs
    exact ih hjs (hd.congr (j.types_note s d) (j.taken_note s d) (j.skipped_note s d))
  | @inner d d₁ d' j _ _ _ _ _ _ _ _ ihx ih =>
    obtain ⟨-, hjs⟩ := List.forall_mem_cons.mp hjs
    refine ih hjs (ihx ?_ (hd.congr (j.types_note s d) (j.taken_note s d) (j.skipped_note s d)))
    exact List.forall_mem_singleton.mpr trivial
  | held _ _ _ ih =>
    obtain ⟨-, hjs⟩ := List.forall_mem_cons.mp hjs
    exact ih hjs hd
  | @fresh d d₁ d₂ d' j js name given t vs us hplan hclaim hbody hrest ihbody ih =>
    obtain ⟨hj, hjs⟩ := List.forall_mem_cons.mp hjs
    obtain ⟨ht, hname⟩ := hj.plan hplan
    have hd₁ := hd.claim hname hclaim
    obtain ⟨htaken, -, -⟩ := Draft.claim_fresh hclaim
    have hgiven : d₁.taken[given]? = some t := by
      rw [htaken]
      exact Std.HashMap.getElem?_insert_self
    refine ih hjs ?_
    have hsites : ∀ j ∈ (bodySites given t).map Job.use, j.IsProper := by
      intro j hj
      obtain ⟨x, -, rfl⟩ := List.mem_map.mp hj
      trivial
    have hgiven₂ := (hbody.grows.1 given t (by rwa [Draft.taken_enter]))
    have hskippedIn : skippedIn d₂.taken (bodyDecl o given t vs) = unvaluedIn given t := by
      rw [skippedIn, name_bodyDecl, hgiven₂, Option.elim_some]
    rw [← name_bodyDecl o given t vs] at hgiven₂
    cases t with
    | enumeration e =>
      obtain ⟨rfl, rfl⟩ := Runs.eq_of_nil hbody
      exact hd₁.declare hgiven₂ hskippedIn.symm rfl rfl rfl
    | _ =>
      have hd₂ := ihbody hsites (hd₁.congr rfl rfl rfl)
      exact hd₂.declare hgiven₂ hskippedIn.symm rfl rfl (List.append_nil _).symm

theorem types_emission (hd : d.Consistent o s []) (us : List Marshalled) :
    (s.emission o us d).bindings.declarations = d.types.toList := by
  have htypes : d.types.toList.filter (!·.isContainer) = d.types.toList := by
    refine List.filter_eq_self.mpr fun t ht => ?_
    rw [hd.not_isContainer ht]
    rfl
  have hclasses (name : String) (fields : List Field) (methods : List Method) :
      (container name fields methods).filter (!·.isContainer) = [] := by
    refine List.filter_eq_nil_iff.mpr fun t ht => ?_
    rw [container_cases ht]
    nofun
  unfold Managed.Bindings.declarations Store.emission
  dsimp only
  rw [List.filter_append, List.filter_append, htypes, hclasses, hclasses, List.append_nil, List.append_nil]

theorem filter_same_of_holds (hd : d.Consistent o s []) (htallied : d.Tallied) {body : NativeType}
    (htag : body.tag ≠ "") (hholds : ∃ name, d.taken.StandsFor name body) :
    ∃ t, d.types.toList.filter (fun t => (d.taken[t.name]?).any (·.same body)) = [t] := by
  obtain ⟨name, held, hheld, hsame⟩ := hholds
  obtain ⟨t, ht, rfl, hfilter⟩ := exists_unique_of_mem_taken hd (Taken.mem_of_eq hheld)
  refine ⟨t, Eq.trans (List.filter_congr fun u hu => ?_) hfilter⟩
  obtain ⟨body', hbody', -⟩ := hd.emitted u hu
  rw [hbody', Option.any_some, Bool.eq_iff_iff, beq_iff_eq]
  constructor
  · intro hsame'
    refine htallied.offered.eq_of_same hbody' hheld ?_ (NativeType.same_trans hsame' (NativeType.same_symm hsame))
    rwa [NativeType.tag_eq_of_same hsame']
  · intro hname
    rw [hname, hheld] at hbody'
    cases hbody'
    exact hsame

namespace Store

theorem complete_of_emit? {e : Emission} (h : s.emit? o = some e) :
    ∃ us d, Runs o s .empty s.jobs us d ∧ e.bindings.declarations = d.types.toList ∧ e.Complete o s d.taken := by
  obtain ⟨us, vs, d, hlength, hrun, rfl⟩ := emit?_eq_some_iff_runs.mp h
  have hd := hrun.consistent (fun j hj => job_isProper hj) (Draft.consistent_empty o s)
  have htallied := hrun.tallied (fun j hj => job_isProper hj) .empty
  have hdeclarations := types_emission hd vs
  refine ⟨us ++ vs, d, hrun, hdeclarations, ?_⟩
  have hvs : vs.length = s.methodSites.length := by
    have hall := hrun.length_eq
    rw [jobs, List.length_append, List.length_append, List.length_map] at hall
    omega
  constructor
  · refine ⟨_, _, ?_, forall₂_fieldsOfConstants d.bounds _, forall₂_methodsOf hvs⟩
    rw [hdeclarations, ← container_fields, ← container_methods]
    rfl
  · rw [Managed.Bindings.declared, hdeclarations]
    exact hd.nodup
  · intro name
    rw [Managed.Bindings.declared, hdeclarations, mem_taken_iff hd]
    rfl
  · rw [hdeclarations]
    intro t ht
    obtain ⟨body, hbody, hemitted⟩ := hd.emitted t ht
    obtain ⟨ws, hws, heq, hisBody⟩ := hemitted.eq_bodyDecl
    exact ⟨body, hbody, heq ▸ declaresBody_bodyDecl hisBody hws⟩
  · intro x hx hname
    have hjob : x.job ∈ s.jobs := List.mem_append_left _ (List.mem_append_left _ (List.mem_map.mpr ⟨x, hx, rfl⟩))
    obtain ⟨n, -, -, hstands⟩ := hrun.holds hjob rfl
    rw [hdeclarations]
    refine filter_same_of_holds hd htallied ?_ ⟨_, hstands⟩
    cases x <;> exact hname
  · rw [hdeclarations, ← htallied.skipped]
    rfl

def halfValued : Enumeration :=
  ⟨"E", [⟨"A", none, some ⟨.int 0, .int32⟩⟩, ⟨"B", some "1 / 0", none⟩]⟩

def halfValuedStore : Store :=
  { ofConstants [⟨"N", "8", .preprocessor, some ⟨.int 8, .sbyte⟩⟩, ⟨"M", "1 / 0", .preprocessor, none⟩] with
    definitions := ⟨#[.enumeration halfValued], ∅⟩
    procedures := ⟨#[⟨"f", .void, [], some .cdecl, none⟩], ∅⟩ }

theorem emit?_halfValuedStore : ∃ e, halfValuedStore.emit? .standard = some e ∧
    e.skipped = [⟨⟨.definedType, "E"⟩, some "B", "value never resolved"⟩,
      ⟨⟨.constant, "M"⟩, none, "value never resolved"⟩] := by
  have hleaf : Job.plan .standard halfValuedStore (.use ⟨.void, .result, "f_return"⟩) =
      .leaf (.builtin .standard .void) :=
    Job.plan_builtin ..
  refine ⟨_, emit?_eq_some_iff_runs.mpr ⟨[_], [_], _, rfl,
    .fresh rfl (Draft.claim_empty ..) (.nil _) (.leaf hleaf (.nil _)), rfl⟩, ?_⟩
  rw [emission, Job.skipped_note]
  rfl

theorem complete_of_halfValuedStore : ∃ e, halfValuedStore.emit? .standard = some e ∧
    e.skipped = [⟨⟨.definedType, "E"⟩, some "B", "value never resolved"⟩,
      ⟨⟨.constant, "M"⟩, none, "value never resolved"⟩] ∧
      ∃ us d, Runs .standard halfValuedStore .empty halfValuedStore.jobs us d ∧
        e.bindings.declarations = d.types.toList ∧ e.Complete .standard halfValuedStore d.taken := by
  obtain ⟨e, he, hskipped⟩ := emit?_halfValuedStore
  exact ⟨e, he, hskipped, complete_of_emit? he⟩

end Store

end HeaderBinding
