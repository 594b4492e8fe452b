import HeaderBinding.Proofs.Emission.Complete

namespace HeaderBinding

open Managed (TypeDecl Method Field)

variable {o : EmitOptions} {s : Store} {e : Emission}

structure Record.NamesApart (body : Record NativeType) : Prop where
  written : ((body.members.map (·.name)).filter (· ≠ "")).Nodup
  placed : ∀ (i : Nat) m, body.members[i]? = some m → m.name = "" →
    placeName "" "Anonymous" i ∉ body.members.map (·.name)

theorem placeName_of_ne {name : String} (h : name ≠ "") (other : String) (i : Nat) : placeName name other i = name :=
  if_neg (by simpa using h)

theorem placeName_empty (other : String) (i : Nat) : placeName "" other i = other ++ toString (i + 1) :=
  rfl

theorem placeName_empty_injective (other : String) : Function.Injective (placeName "" other) := by
  intro i j h
  rw [placeName_empty, placeName_empty] at h
  exact Nat.succ.inj (Nat.repr_injective ((String.append_right_inj _).mp h))

theorem placeName_empty_ne (i : Nat) : placeName "" "Anonymous" i ≠ "" := by
  intro h
  have hlength := congrArg String.length h
  rw [placeName_empty, String.length_append] at hlength
  have hanonymous : "Anonymous".length = 9 := rfl
  have hempty : "".length = 0 := rfl
  omega

theorem Record.namesApart_of_nodup {body : Record NativeType} (h : (body.members.map (·.name)).Nodup)
    (hne : ∀ m ∈ body.members, m.name ≠ "") : body.NamesApart where
  written := h.filter _
  placed _ m hm hname := absurd hname (hne m (List.mem_of_getElem? hm))

theorem fieldNames_getElem {ms : List (Member NativeType)} {i : Nat} (h : i < (fieldNames ms).length)
    (h' : i < ms.length) : (fieldNames ms)[i] = placeName ms[i].name "Anonymous" i := by
  simp [fieldNames, placeName_eq]

theorem length_fieldNames (ms : List (Member NativeType)) : (fieldNames ms).length = ms.length := by
  simp [fieldNames]

theorem namesApart_of_fieldNames {body : Record NativeType} (h : (fieldNames body.members).Nodup) :
    body.NamesApart := by
  have hsame {i j : Nat} (hi : i < body.members.length) (hj : j < body.members.length)
      (heq : placeName body.members[i].name "Anonymous" i = placeName body.members[j].name "Anonymous" j) : i = j := by
    rw [← length_fieldNames] at hi hj
    rw [← fieldNames_getElem hi, ← fieldNames_getElem hj] at heq
    exact h.getElem_inj_iff.mp heq
  constructor
  · rw [List.Nodup, List.pairwise_filter, List.pairwise_map, List.pairwise_iff_getElem]
    intro i j hi hj hlt hni hnj heq
    simp only [decide_eq_true_eq] at hni hnj
    exact hlt.ne (hsame hi hj (by rw [placeName_of_ne hni, placeName_of_ne hnj, heq]))
  · intro i m hm hname hmem
    obtain ⟨n, hn, heq⟩ := List.mem_map.mp hmem
    obtain ⟨j, hj, rfl⟩ := List.mem_iff_getElem.mp hn
    obtain ⟨hi, rfl⟩ := List.getElem?_eq_some_iff.mp hm
    have hne : body.members[j].name ≠ "" := heq ▸ placeName_empty_ne i
    obtain rfl := hsame hi hj (by rw [placeName_of_ne hne, hname, heq])
    exact hne hname

theorem Record.NamesApart.nodup_fieldNames {body : Record NativeType} (h : body.NamesApart) :
    (fieldNames body.members).Nodup := by
  rw [List.Nodup, List.pairwise_iff_getElem]
  intro i j hi hj hlt heq
  have hi' : i < body.members.length := length_fieldNames body.members ▸ hi
  have hj' : j < body.members.length := length_fieldNames body.members ▸ hj
  rw [fieldNames_getElem hi hi', fieldNames_getElem hj hj'] at heq
  have hmem {k : Nat} (hk : k < body.members.length) : body.members[k].name ∈ body.members.map (·.name) :=
    List.mem_map_of_mem (List.getElem_mem hk)
  by_cases hni : body.members[i].name = "" <;> by_cases hnj : body.members[j].name = ""
  · rw [hni, hnj] at heq
    exact hlt.ne (placeName_empty_injective _ heq)
  · rw [hni, placeName_of_ne hnj] at heq
    exact h.placed i _ (List.getElem?_eq_getElem hi') hni (heq ▸ hmem hj')
  · rw [placeName_of_ne hni, hnj] at heq
    exact h.placed j _ (List.getElem?_eq_getElem hj') hnj (heq ▸ hmem hi')
  · rw [placeName_of_ne hni, placeName_of_ne hnj] at heq
    have hwritten := h.written
    rw [List.Nodup, List.pairwise_filter, List.pairwise_map, List.pairwise_iff_getElem] at hwritten
    exact hwritten i j hi' hj' hlt (by simpa using hni) (by simpa using hnj) heq

theorem nodup_fieldNames_iff (body : Record NativeType) : (fieldNames body.members).Nodup ↔ body.NamesApart :=
  ⟨namesApart_of_fieldNames, fun h => h.nodup_fieldNames⟩

structure ClassesApart (o : EmitOptions) (s : Store) (declared : List String) : Prop where
  constants : (∃ c ∈ s.constants.toList, c.value ≠ none) → o.constantsClass ∉ declared
  methods : s.procedures.toList ≠ [] → o.methodsClass ∉ declared
  classes : (∃ c ∈ s.constants.toList, c.value ≠ none) → s.procedures.toList ≠ [] →
    o.constantsClass ≠ o.methodsClass

theorem fieldsOfConstants_eq_nil_iff (bounds : Std.HashSet String) (cs : List Constant) :
    fieldsOfConstants bounds cs = [] ↔ ¬∃ c ∈ cs, c.value ≠ none := by
  simp [fieldsOfConstants, List.filterMap_eq_nil_iff]

theorem length_methodsOf (o : EmitOptions) (ps : List Procedure) (us : List Marshalled) :
    (methodsOf o ps us).length = ps.length := by
  induction ps generalizing us with
  | nil => rfl
  | cons p ps ih => exact congrArg Nat.succ (ih _)

theorem names_container (name : String) (fields : List Field) (methods : List Method) :
    (container name fields methods).map (·.name) = if fields = [] ∧ methods = [] then [] else [name] := by
  unfold container
  cases fields <;> cases methods <;> rfl

theorem names_emission (us : List Marshalled) (d : Draft) :
    (s.emission o us d).bindings.types.map (·.name) = d.names ++
      ((if ∃ c ∈ s.constants.toList, c.value ≠ none then [o.constantsClass] else []) ++
        if s.procedures.toList = [] then [] else [o.methodsClass]) := by
  have hfields := fieldsOfConstants_eq_nil_iff d.bounds s.constants.toList
  have hmethods : methodsOf o s.procedures.toList us = [] ↔ s.procedures.toList = [] := by
    rw [← List.length_eq_zero_iff, length_methodsOf, List.length_eq_zero_iff]
  unfold Store.emission
  rw [List.map_append, List.map_append, names_container, names_container]
  simp only [hfields, hmethods, and_true, true_and, ite_not]
  rfl

theorem nodup_append_ite_iff {α : Type} {p q : Prop} [Decidable p] [Decidable q] {xs : List α} {a b : α} :
    (xs ++ ((if p then [a] else []) ++ if q then [] else [b])).Nodup ↔
      xs.Nodup ∧ (p → a ∉ xs) ∧ (¬q → b ∉ xs) ∧ (p → ¬q → a ≠ b) := by
  rw [List.nodup_append]
  by_cases p <;> by_cases q <;> grind

theorem nodup_names_iff {us : List Marshalled} {d : Draft} (hd : d.Consistent o s []) :
    ((s.emission o us d).bindings.types.map (·.name)).Nodup ↔ ClassesApart o s d.names := by
  rw [names_emission, nodup_append_ite_iff]
  exact ⟨fun ⟨_, hconstants, hmethods, hclasses⟩ => ⟨hconstants, hmethods, hclasses⟩,
    fun h => ⟨hd.nodup, h.constants, h.methods, h.classes⟩⟩

namespace Store

theorem mem_types_emission {us : List Marshalled} {d : Draft} {t : TypeDecl}
    (ht : t ∈ (s.emission o us d).bindings.types) : t ∈ d.types.toList ∨ t.isContainer = true := by
  rcases List.mem_append.mp ht with ht | ht
  · exact .inl ht
  · rcases List.mem_append.mp ht with ht | ht
    · rw [container_cases ht]
      exact .inr rfl
    · rw [container_cases ht]
      exact .inr rfl

theorem exists_runs_of_emit? (h : s.emit? o = some e) :
    ∃ us vs d, Runs o s .empty s.jobs (us ++ vs) d ∧ e = s.emission o vs d ∧ d.Consistent o s [] ∧
      ∀ t ∈ e.bindings.types, t.isContainer = false → ∃ body ws, d.taken[t.name]? = some body ∧ body ∈ s.bodies ∧
        body.isBody = true ∧ ws.length = (bodySites t.name body).length ∧ t = bodyDecl o t.name body ws := by
  obtain ⟨us, vs, d, -, hrun, rfl⟩ := emit?_eq_some_iff_runs.mp h
  have hd := hrun.consistent (fun j hj => job_isProper hj) (Draft.consistent_empty o s)
  have hbodies := hrun.mem_bodies (fun j hj => meets_of_mem_jobs hj) (by simp [Draft.empty])
  refine ⟨us, vs, d, hrun, rfl, hd, fun t ht hclass => ?_⟩
  have hdeclared : t ∈ d.types.toList := (mem_types_emission ht).resolve_right (by simp [hclass])
  obtain ⟨body, hbody, hemitted⟩ := hd.emitted t hdeclared
  obtain ⟨ws, hws, heq, hisBody⟩ := hemitted.eq_bodyDecl
  exact ⟨body, ws, hbody, hbodies t.name body hbody, hisBody, hws, heq⟩

theorem apart_of_emit? (h : s.emit? o = some e) :
    e.bindings.declared.Nodup ∧
      ((e.bindings.types.map (·.name)).Nodup ↔ ClassesApart o s e.bindings.declared) ∧
      ∃ us d, Runs o s .empty s.jobs us d ∧ e.bindings.declarations = d.types.toList ∧
        ∀ t ∈ e.bindings.types, ∀ fields, t.body = .record fields →
          ∃ kind body, d.taken[t.name]? = some (.record kind body) ∧ .record kind body ∈ s.bodies ∧
            fields.map (·.name) = fieldNames body.members ∧
            ((fields.map (·.name)).Nodup ↔ body.NamesApart) ∧
            ((body.members.map (·.name)).Nodup → (∀ m ∈ body.members, m.name ≠ "") →
              (fields.map (·.name)).Nodup) := by
  obtain ⟨us, vs, d, hrun, rfl, hd, hbodies⟩ := exists_runs_of_emit? h
  have hdeclarations := types_emission hd vs
  have hdeclared : (s.emission o vs d).bindings.declared = d.names := by
    rw [Managed.Bindings.declared, hdeclarations]
    rfl
  rw [hdeclared]
  refine ⟨hd.nodup, nodup_names_iff hd, us ++ vs, d, hrun, hdeclarations, fun t ht fields hfields => ?_⟩
  obtain ⟨body, ws, hbody, hmem, hisBody, hws, heq⟩ := hbodies t ht (by rw [TypeDecl.isContainer, hfields])
  have hdeclares := declaresBody_bodyDecl (o := o) hisBody hws
  rw [← heq] at hdeclares
  cases body with
  | record kind r =>
    obtain ⟨fields', hfields', hnames⟩ := hdeclares
    cases hfields.symm.trans hfields'
    have hnodup : (fields.map (·.name)).Nodup ↔ r.NamesApart := by rw [hnames, nodup_fieldNames_iff]
    exact ⟨kind, r, hbody, hmem, hnames, hnodup,
      fun hdistinct hne => hnodup.mpr (Record.namesApart_of_nodup hdistinct hne)⟩
  | enumeration x =>
    obtain ⟨_, _, hdeclared, -⟩ := hdeclares
    cases hfields.symm.trans hdeclared
  | function f =>
    obtain ⟨_, hdeclared, -⟩ := hdeclares
    cases hfields.symm.trans hdeclared
  | _ => cases hisBody

def clashing : Record NativeType :=
  ⟨"NativeMethods", [⟨"", .builtin ⟨.int32, false⟩⟩, ⟨"Anonymous1", .builtin ⟨.int32, false⟩⟩]⟩

def clashingStore : Store :=
  { empty with
    definitions := ⟨#[.record .struct clashing], ∅⟩
    procedures := ⟨#[⟨"f", .builtin ⟨.int32, false⟩, [], none, none⟩], ∅⟩ }

theorem not_namesApart_clashing : ¬clashing.NamesApart :=
  fun h => h.placed 0 _ rfl rfl (by decide)

theorem emit?_clashingStore : ∃ e us, clashingStore.emit? .standard = some e ∧
    e.bindings.declarations = [bodyDecl .standard "NativeMethods" (.record .struct clashing) us] := by
  have hleaf := Job.plan_builtin .standard clashingStore ⟨.int32, false⟩
  have hrun := Runs.fresh (j := .declare "NativeMethods" (.record .struct clashing)) rfl (Draft.claim_empty ..)
    (.leaf (hleaf ..) (.leaf (hleaf ..) (.nil _))) (.leaf (hleaf .result "f_return") (.nil _))
  refine ⟨_, [.builtin .standard ⟨.int32, false⟩, .builtin .standard ⟨.int32, false⟩],
    emit?_eq_some_iff_runs.mpr ⟨[_], [_], _, rfl, hrun, rfl⟩, ?_⟩
  have hd := hrun.consistent (fun j hj => job_isProper (s := clashingStore) hj) (Draft.consistent_empty ..)
  rw [types_emission hd, Job.types_note, Draft.declare, Draft.leave]
  dsimp only
  rw [Job.types_note, Job.types_note]
  rfl

theorem bodies_clashingStore : clashingStore.bodies =
    .record .struct clashing :: List.replicate 3 (.builtin ⟨.int32, false⟩) := by
  simp [bodies, parts, roots, clashingStore, clashing, empty, Table.empty, Table.toList, Definition.toType,
    Declaration.roots, Definition.memberTypes, NativeType.visit_eq, NativeType.children, List.replicate]

theorem apart_of_clashingStore : ∃ e, clashingStore.emit? .standard = some e ∧
    ¬(e.bindings.types.map (·.name)).Nodup ∧
    ∃ t ∈ e.bindings.types, ∃ fields, t.body = .record fields ∧ ¬(fields.map (·.name)).Nodup := by
  obtain ⟨e, us, he, hdeclarations⟩ := emit?_clashingStore
  obtain ⟨-, hnames, _, _, -, -, hfields⟩ := apart_of_emit? he
  have ht : bodyDecl .standard "NativeMethods" (.record .struct clashing) us ∈ e.bindings.types :=
    List.mem_of_mem_filter (hdeclarations ▸ List.mem_singleton_self _)
  refine ⟨e, he, ?_, _, ht, _, rfl, ?_⟩
  · rw [hnames, Managed.Bindings.declared, hdeclarations]
    exact fun h => h.methods (by decide) (List.mem_singleton_self "NativeMethods")
  · obtain ⟨kind, body, -, hmem, -, hnodup, -⟩ := hfields _ ht _ rfl
    rw [bodies_clashingStore] at hmem
    obtain ⟨-, rfl⟩ : kind = .struct ∧ body = clashing := by simpa using hmem
    rw [hnodup]
    exact not_namesApart_clashing

end Store

end HeaderBinding
