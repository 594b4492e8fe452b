import HeaderBinding.Json.Tree
import HeaderBinding.Proofs.Declaration.Data
import HeaderBinding.Proofs.Numeral.Precision

namespace HeaderBinding

namespace Json

mutual
theorem readsAs_inTree : ∀ {j : Json}, j.anyFault (fun _ => true) = false → j.ReadsAs j.inTree
  | .single x, _ => by
    by_cases hx : x.isFinite = true
    · rw [inTree, if_pos hx]
      exact ⟨hx, Numeral.narrow_widen hx⟩
    · rw [inTree, if_neg hx]
      exact Bool.eq_false_iff.mpr hx
  | .double x, _ => by
    by_cases hx : x.isFinite = true
    · rw [inTree, if_pos hx]
      exact ⟨hx, rfl⟩
    · rw [inTree, if_neg hx]
      exact Bool.eq_false_iff.mpr hx
  | .array _, h => allReadAs_inTreeItems h
  | .object _, h => entriesReadAs_inTreeEntries h
  | .null, _ => trivial
  | .bool _, _ | .integer _, _ | .string _, _ => rfl
  | .fault _, h => nomatch h
termination_by structural j => j

theorem allReadAs_inTreeItems : ∀ {js : List Json}, anyFaultItems (fun _ => true) js = false →
    AllReadAs js (inTreeItems js)
  | [], _ => trivial
  | _ :: _, h => by
    rw [anyFaultItems, Bool.or_eq_false_iff] at h
    exact ⟨readsAs_inTree h.1, allReadAs_inTreeItems h.2⟩
termination_by structural js => js

theorem entriesReadAs_inTreeEntries : ∀ {es : List (String × Json)}, anyFaultEntries (fun _ => true) es = false →
    EntriesReadAs es (inTreeEntries es)
  | [], _ => trivial
  | (_, _) :: _, h => by
    rw [anyFaultEntries, Bool.or_eq_false_iff] at h
    exact ⟨rfl, readsAs_inTree h.1, entriesReadAs_inTreeEntries h.2⟩
termination_by structural es => es
end

end Json

def TypedLiteral.isFinite (v : TypedLiteral) : Bool :=
  match v.literal with
  | .single x => x.isFinite
  | .double x => x.isFinite
  | _ => true

def Enumeration.literals (e : Enumeration) : List TypedLiteral :=
  e.members.filterMap (·.value)

def NativeType.literals (t : NativeType) : List TypedLiteral :=
  t.enumerations.flatMap Enumeration.literals

def Definition.literals (d : Definition) : List TypedLiteral :=
  d.toType.literals

def Procedure.literals (p : Procedure) : List TypedLiteral :=
  p.returns.literals ++ p.params.flatMap (·.type.literals)

namespace Json

structure Carries (j : Json) (vs : List TypedLiteral) : Prop where
  sound : j.anyFault (fun _ => true) = false
  finite : j.isFinite = true ↔ ∀ v ∈ vs, v.isFinite = true

structure EntriesCarry (es : List (String × Json)) (vs : List TypedLiteral) : Prop where
  sound : anyFaultEntries (fun _ => true) es = false
  finite : isFiniteEntries es = true ↔ ∀ v ∈ vs, v.isFinite = true

variable {j : Json} {es fs : List (String × Json)} {vs ws : List TypedLiteral}

theorem carries_string (s : String) : (string s).Carries [] :=
  ⟨rfl, by simp [isFinite]⟩

theorem carries_integer (n : Int) : (integer n).Carries [] :=
  ⟨rfl, by simp [isFinite]⟩

theorem carries_bool (b : Bool) : (bool b).Carries [] :=
  ⟨rfl, by simp [isFinite]⟩

theorem EntriesCarry.object (h : EntriesCarry es vs) : (object es).Carries vs :=
  ⟨h.sound, h.finite⟩

theorem EntriesCarry.nil : EntriesCarry [] [] :=
  ⟨rfl, by simp [isFiniteEntries]⟩

theorem EntriesCarry.cons {key : String} (hj : j.Carries vs) (hes : EntriesCarry es ws) :
    EntriesCarry ((key, j) :: es) (vs ++ ws) where
  sound := by
    rw [anyFaultEntries, hj.sound, hes.sound]
    rfl
  finite := by rw [isFiniteEntries, Bool.and_eq_true, hj.finite, hes.finite, List.forall_mem_append]

theorem isFiniteEntries_append (es fs : List (String × Json)) :
    isFiniteEntries (es ++ fs) = (isFiniteEntries es && isFiniteEntries fs) := by
  induction es with
  | nil => rfl
  | cons e rest ih => rw [List.cons_append, isFiniteEntries, isFiniteEntries, ih, Bool.and_assoc]

theorem EntriesCarry.append (hes : EntriesCarry es vs) (hfs : EntriesCarry fs ws) :
    EntriesCarry (es ++ fs) (vs ++ ws) where
  sound := by
    rw [anyFaultEntries_append, hes.sound, hfs.sound]
    rfl
  finite := by rw [isFiniteEntries_append, Bool.and_eq_true, hes.finite, hfs.finite, List.forall_mem_append]

theorem entriesCarry_optional {α : Type} (key : String) {toJson : α → Json} {literals : α → List TypedLiteral}
    (h : ∀ a, (toJson a).Carries (literals a)) (o : Option α) :
    EntriesCarry (optional key toJson o) (o.toList.flatMap literals) := by
  cases o with
  | none => exact .nil
  | some a => simpa [optional] using EntriesCarry.cons (h a) .nil

theorem entriesCarry_optional_nil {α : Type} (key : String) {toJson : α → Json} (h : ∀ a, (toJson a).Carries [])
    (o : Option α) : EntriesCarry (optional key toJson o) [] := by
  cases o with
  | none => exact .nil
  | some a => exact .cons (h a) .nil

theorem carries_array {α : Type} {toJson : α → Json} {literals : α → List TypedLiteral} {as : List α}
    (h : ∀ a ∈ as, (toJson a).Carries (literals a)) : (array (as.map toJson)).Carries (as.flatMap literals) := by
  induction as with
  | nil => exact ⟨rfl, by simp [isFinite, isFiniteItems]⟩
  | cons a rest ih =>
    obtain ⟨ha, hrest⟩ := List.forall_mem_cons.mp h
    obtain ⟨hsound, hfinite⟩ := ih hrest
    constructor
    · rw [anyFault] at hsound ⊢
      rw [List.map_cons, anyFaultItems, ha.sound, hsound]
      rfl
    · rw [isFinite] at hfinite ⊢
      rw [List.map_cons, isFiniteItems, Bool.and_eq_true, ha.finite, hfinite, List.flatMap_cons, List.forall_mem_append]

end Json

open Json (EntriesCarry carries_string carries_integer carries_bool entriesCarry_optional entriesCarry_optional_nil
  carries_array)

theorem TypedLiteral.carries (v : TypedLiteral) : v.toJson.Carries [v] := by
  obtain ⟨literal, type⟩ := v
  cases literal <;> exact ⟨rfl, by simp [isFinite, toJson, Literal.toJson, Literal.contentJson, LiteralType.toJson,
    Json.isFinite, Json.isFiniteEntries]⟩

theorem Enumerator.carries (m : Enumerator) : m.toJson.Carries m.value.toList := by
  have hoptional := (entriesCarry_optional_nil "value" carries_string m.expr).append
    (entriesCarry_optional "resolved" TypedLiteral.carries m.value)
  simpa [toJson] using (EntriesCarry.cons (carries_string m.name) hoptional).object

theorem Enumeration.entriesCarry (e : Enumeration) : EntriesCarry e.entries e.literals := by
  have hmembers := carries_array fun m (_ : m ∈ e.members) => m.carries
  have hliterals : e.members.flatMap (·.value.toList) = e.literals := by
    rw [literals, List.filterMap_eq_flatMap_toList]
  rw [hliterals] at hmembers
  simpa [entries] using EntriesCarry.cons (carries_string e.name) (.cons hmembers .nil)

theorem Reference.entriesCarry (r : Reference) : EntriesCarry r.entries [] := by
  unfold entries
  split
  · exact .cons (carries_string _) .nil
  · exact .cons (carries_string _) (.cons (carries_string _) .nil)

theorem ArrayLength.carries (l : ArrayLength) : l.toJson.Carries [] := by
  cases l with
  | fixed n => exact (EntriesCarry.cons (carries_integer _) .nil).object
  | constant name => exact (EntriesCarry.cons (carries_string _) .nil).object

theorem CallingConvention.carries (c : CallingConvention) : c.toJson.Carries [] :=
  carries_string _

theorem Member.carries {m : Member NativeType} (h : m.type.toJson.Carries m.type.literals) :
    m.toJson.Carries m.type.literals := by
  simpa [toJson] using (EntriesCarry.cons (carries_string m.name) (.cons h .nil)).object

theorem Parameter.carries {p : Parameter NativeType} (h : p.type.toJson.Carries p.type.literals) :
    p.toJson.Carries p.type.literals := by
  have hdirection : EntriesCarry [("direction", .string p.direction.word)] [] := .cons (carries_string _) .nil
  simpa [toJson] using (EntriesCarry.cons (carries_string p.name) (.cons h hdirection)).object

namespace NativeType

theorem literals_eq (t : NativeType) :
    t.literals = (t.enumeration?.toList.flatMap Enumeration.literals) ++ t.children.flatMap literals := by
  unfold literals
  rw [enumerations_eq, List.flatMap_append, List.flatMap_assoc]

theorem carries (t : NativeType) : t.toJson.Carries t.literals := by
  induction t using children_induction with
  | h t ih =>
    rw [literals_eq]
    cases t with
    | builtin b =>
      exact (EntriesCarry.cons (carries_string _) (.cons (carries_string _) (.cons (carries_bool _) .nil))).object
    | pointer pointee =>
      have hpointee := ih pointee (List.mem_singleton_self _)
      simpa [toJson, children, enumeration?] using
        (EntriesCarry.cons (carries_string "pointer") (.cons hpointee .nil)).object
    | array element rank length =>
      have helement := ih element (List.mem_singleton_self _)
      have hlength := entriesCarry_optional_nil "length" ArrayLength.carries length
      simpa [toJson, children, enumeration?] using (EntriesCarry.cons (carries_string "array")
        (.cons helement (.cons (carries_integer rank.toNat) hlength))).object
    | synonym name target =>
      have htarget := ih target (List.mem_singleton_self _)
      simpa [toJson, children, enumeration?] using (EntriesCarry.cons (carries_string "type_def")
        (.cons (carries_string name) (.cons htarget .nil))).object
    | named r => exact (EntriesCarry.cons (carries_string _) r.entriesCarry).object
    | enumeration e =>
      simpa [toJson, children, enumeration?] using (EntriesCarry.cons (carries_string "enum") e.entriesCarry).object
    | record kind body =>
      simp only [children, List.forall_mem_map] at ih
      have hmembers := carries_array fun m hm => Member.carries (ih m hm)
      rw [← membersJson_eq_map] at hmembers
      simpa [toJson, children, enumeration?, List.flatMap_map] using (EntriesCarry.cons (carries_string kind.word)
        (.cons (carries_string body.name) (.cons hmembers .nil))).object
    | function s =>
      simp only [children, List.forall_mem_cons, List.forall_mem_map] at ih
      have hparams := carries_array fun p hp => Parameter.carries (ih.2 p hp)
      rw [← paramsJson_eq_map] at hparams
      have hconvention := entriesCarry_optional_nil "calling_convention" CallingConvention.carries s.convention
      simpa [toJson, children, enumeration?, List.flatMap_map] using
        (EntriesCarry.cons (carries_string "function_pointer")
          (.cons (carries_string s.name) (.cons ih.1 (.cons hparams hconvention)))).object

end NativeType

theorem Typedef.carries (d : Typedef) : d.toJson.Carries d.target.literals := by
  simpa [toJson] using (EntriesCarry.cons (carries_string d.name) (.cons d.target.carries .nil)).object

theorem Definition.carries (d : Definition) : d.toJson.Carries d.literals := by
  cases d with
  | record kind body =>
    have hbody := (NativeType.record kind body).carries
    exact ⟨hbody.sound, hbody.finite⟩
  | enumeration e =>
    have hbody := (NativeType.enumeration e).carries
    exact ⟨hbody.sound, hbody.finite⟩

theorem Constant.carries (c : Constant) : c.toJson.Carries c.value.toList := by
  have hvalue := entriesCarry_optional "resolved" TypedLiteral.carries c.value
  simpa [toJson] using (EntriesCarry.cons (carries_string c.name) (.cons (carries_string c.expr)
    (.cons (carries_string c.kind.word) hvalue))).object

theorem Procedure.carries (p : Procedure) : p.toJson.Carries p.literals := by
  have hparams := carries_array fun q (_ : q ∈ p.params) => Parameter.carries q.type.carries
  rw [← NativeType.paramsJson_eq_map] at hparams
  have hoptional := (entriesCarry_optional_nil "calling_convention" CallingConvention.carries p.convention).append
    (entriesCarry_optional_nil "source_module" carries_string p.module)
  simpa [toJson, literals] using (EntriesCarry.cons (carries_string p.name) (.cons p.returns.carries
    (.cons hparams hoptional))).object

theorem Typedef.toJson_unlinked (d : Typedef) : toJson (Declaration.mapRoots NativeType.unlinked d) = d.toJson := by
  simp only [toJson, ← d.target.toJson_unlinked]
  rfl

theorem Definition.toJson_unlinked (d : Definition) :
    toJson (Declaration.mapRoots NativeType.unlinked d) = d.toJson := by
  cases d with
  | enumeration e => rfl
  | record kind body =>
    simp only [mapRoots_record, toJson, NativeType.membersJson_map fun m _ => m.type.toJson_unlinked]

theorem Procedure.toJson_unlinked (p : Procedure) :
    toJson (Declaration.mapRoots NativeType.unlinked p) = p.toJson := by
  simp only [mapRoots_eq, toJson, NativeType.toJson_unlinked,
    NativeType.paramsJson_map fun q _ => q.type.toJson_unlinked]

structure ToldByTrees (α : Type) [DeclarationData α] (literals : α → List TypedLiteral) : Prop where
  decodes : ∀ a : α, (∀ v ∈ literals a, v.isFinite = true) →
    DeclarationData.ofJson .tree (DeclarationData.toJson a).tree = .ok (Declaration.mapRoots NativeType.unlinked a)
  tree_eq_iff : ∀ a b : α, (∀ v ∈ literals a, v.isFinite = true) → (∀ v ∈ literals b, v.isFinite = true) →
    ((DeclarationData.toJson a).tree = (DeclarationData.toJson b).tree ↔
      Declaration.mapRoots NativeType.unlinked a = Declaration.mapRoots NativeType.unlinked b)

theorem ToldByTrees.of_carries {α : Type} [DeclarationData α] [LawfulData α] {literals : α → List TypedLiteral}
    (hcarries : ∀ a : α, (DeclarationData.toJson a).Carries (literals a))
    (hlinks : ∀ a : α, DeclarationData.toJson (Declaration.mapRoots NativeType.unlinked a) = DeclarationData.toJson a) :
    ToldByTrees α literals := by
  have hdecodes (a : α) (ha : ∀ v ∈ literals a, v.isFinite = true) :
      DeclarationData.ofJson .tree (DeclarationData.toJson a).tree = .ok (Declaration.mapRoots NativeType.unlinked a) :=
    (LawfulData.decodes a (Json.readsAs_inTree (hcarries a).sound)).ok ((hcarries a).finite.mpr ha)
  refine ⟨hdecodes, fun a b ha hb => ⟨fun htree => ?_, fun hunlinked => ?_⟩⟩
  · have hsame := hdecodes a ha
    rw [htree, hdecodes b hb] at hsame
    exact (Except.ok.inj hsame).symm
  · rw [← hlinks a, hunlinked, hlinks b]

theorem declarations_toldByTrees :
    ToldByTrees Typedef (·.target.literals) ∧ ToldByTrees Definition Definition.literals ∧
      ToldByTrees Constant (·.value.toList) ∧ ToldByTrees Procedure Procedure.literals :=
  ⟨.of_carries Typedef.carries Typedef.toJson_unlinked, .of_carries Definition.carries Definition.toJson_unlinked,
    .of_carries Constant.carries fun _ => rfl, .of_carries Procedure.carries Procedure.toJson_unlinked⟩

def half : TypedLiteral :=
  ⟨.single (.ofBits 0x3F000000), .single⟩

def mixedRecord (target : Option Target) : Definition :=
  .record .struct ⟨"S", [⟨"", .pointer (.named ⟨"T", target, ⟨0x85⟩⟩)⟩,
    ⟨"e", .enumeration ⟨"", [⟨"A", none, some half⟩]⟩⟩]⟩

theorem literals_mixedRecord (target : Option Target) : (mixedRecord target).literals = [half] := by
  simp [mixedRecord, Definition.literals, Definition.toType, NativeType.literals_eq, NativeType.children,
    NativeType.enumeration?, Enumeration.literals]

theorem decodes_mixedRecord :
    Definition.ofJson .tree (mixedRecord (some (.declaration (.synonym "T")))).toJson.tree =
      .ok (mixedRecord none) := by
  have hfinite : ∀ v ∈ (mixedRecord (some (.declaration (.synonym "T")))).literals, v.isFinite = true := by
    rw [literals_mixedRecord, List.forall_mem_singleton]
    decide +kernel
  exact declarations_toldByTrees.2.1.decodes _ hfinite

end HeaderBinding
