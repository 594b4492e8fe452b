import HeaderBinding.Declaration.Data
import HeaderBinding.Proofs.Native.Data
import HeaderBinding.Proofs.Native.Same
import HeaderBinding.Proofs.Resolve.Linking

namespace HeaderBinding

open Json (need may)

class LawfulData (α : Type) [DeclarationData α] : Prop extends LawfulDeclaration α where
  mapRoots_mapRoots : ∀ (f g : NativeType → NativeType) (a : α),
    Declaration.mapRoots g (Declaration.mapRoots f a) = Declaration.mapRoots (fun t => g (f t)) a
  sameContent_mapRoots : ∀ {f : NativeType → NativeType}, (∀ t, (f t).shape = t.shape) → ∀ a : α,
    Declaration.sameContent a (Declaration.mapRoots f a) = true
  decodes : ∀ (a : α) {k : Json}, (DeclarationData.toJson a).ReadsAs k →
    Decodes (DeclarationData.ofJson .tree k.sorted) ((DeclarationData.toJson a).isFinite = true)
      (Declaration.mapRoots NativeType.unlinked a)
  get_name : ∀ (a : α) {k : Json}, (DeclarationData.toJson a).ReadsAs k →
    k.sorted.get? "name" = some (.string (Declaration.name a))

variable {k : Json}

namespace Typedef

theorem decodes (d : Typedef) (h : d.toJson.ReadsAs k) :
    Decodes (ofJson .tree k.sorted) (d.toJson.isFinite = true) (Declaration.mapRoots NativeType.unlinked d) := by
  simp only [toJson, Json.readsAs_object, Json.entriesReadAs_cons, Json.entriesReadAs_nil,
    Json.readsAs_string] at h
  obtain ⟨_, rfl, _, _, rfl, rfl, kt, _, rfl, hkt, rfl⟩ := h
  have hsorted : (Json.object [("name", .string d.name), ("target", kt)]).sorted =
      .object [("name", .string d.name), ("target", kt.sorted)] := by
    rfl
  have hname := decodes_text d.name
  have htarget := d.target.readsType_ofJson .tree _ kt hkt (Nat.lt_succ_self _)
  rw [hsorted]
  refine Decodes.congr (.record (.field rfl rfl hname (.field rfl rfl htarget .done)) rfl) ?_
  simp [toJson, Json.isFinite, Json.isFiniteEntries]

theorem get_name (d : Typedef) (h : d.toJson.ReadsAs k) : k.sorted.get? "name" = some (.string d.name) := by
  simp only [toJson, Json.readsAs_object, Json.entriesReadAs_cons, Json.entriesReadAs_nil,
    Json.readsAs_string] at h
  obtain ⟨_, rfl, _, _, rfl, rfl, kt, _, rfl, hkt, rfl⟩ := h
  rfl

instance : LawfulData Typedef where
  mapRoots_mapRoots _ _ _ := rfl
  sameContent_mapRoots {f} hf d := by
    change (d.name == d.name && d.target.shape.same (f d.target).shape) = true
    rw [hf, NativeType.same_refl, BEq.rfl]
    rfl
  decodes d _ h := d.decodes h
  get_name d _ h := d.get_name h

end Typedef

namespace Definition

theorem decodes (d : Definition) (h : d.toJson.ReadsAs k) :
    Decodes (ofJson .tree k.sorted) (d.toJson.isFinite = true) (Declaration.mapRoots NativeType.unlinked d) := by
  have hread := h
  cases d with
  | record kind body =>
    simp only [toJson, NativeType.membersJson_eq_map, Json.readsAs_object, Json.entriesReadAs_cons,
      Json.entriesReadAs_nil, Json.readsAs_string, Json.readsAs_array] at h
    obtain ⟨_, rfl, _, _, rfl, rfl, _, _, rfl, rfl, _, _, rfl, ⟨ks, rfl, hks⟩, rfl⟩ := h
    have hsorted : (Json.object [("kind", .string kind.word), ("name", .string body.name),
        ("members", .array ks)]).sorted =
          .object ([] ++ ("kind", .string kind.word) :: [("members", .array (Json.sortedItems ks)),
            ("name", .string body.name)]) := by
      rfl
    have hword : ["struct", "union", "enum"].contains kind.word = true := by cases kind <;> rfl
    have htag := Json.toTagged_sorted .tree hread hword [] _ hsorted (by simp)
    have hbody := NativeType.decodes_body .held body hks (Nat.le_refl _) fun m _ => m.type.readsType_ofJson .held _
    have hfinite : (record kind body).toJson.isFinite = true ↔ ∀ m ∈ body.members, m.toJson.isFinite = true := by
      simp [toJson, NativeType.membersJson_eq_map, Json.isFinite, Json.isFiniteEntries, Json.isFiniteItems_eq_all]
    rw [ofJson, htag, mapRoots_record]
    cases kind with
    | struct => exact (hbody.map (Definition.record .struct)).congr hfinite
    | union => exact (hbody.map (Definition.record .union)).congr hfinite
  | enumeration e =>
    simp only [toJson, Enumeration.entries, Json.readsAs_object, Json.entriesReadAs_cons,
      Json.entriesReadAs_nil, Json.readsAs_string, Json.readsAs_array] at h
    obtain ⟨_, rfl, _, _, rfl, rfl, _, _, rfl, rfl, _, _, rfl, ⟨ks, rfl, hks⟩, rfl⟩ := h
    have hsorted : (Json.object [("kind", .string "enum"), ("name", .string e.name), ("members", .array ks)]).sorted =
        .object ([] ++ ("kind", .string "enum") :: [("members", .array (Json.sortedItems ks)),
          ("name", .string e.name)]) := by
      rfl
    have hword : ["struct", "union", "enum"].contains "enum" = true := rfl
    have htag := Json.toTagged_sorted .tree hread hword [] _ hsorted (by simp)
    have hcontent := (e.decodes .held hks).map Definition.enumeration
    rw [ofJson, htag]
    refine hcontent.congr ?_
    simp [toJson, Enumeration.entries, Json.isFinite, Json.isFiniteEntries, Json.isFiniteItems_eq_all]

theorem get_name (d : Definition) (h : d.toJson.ReadsAs k) : k.sorted.get? "name" = some (.string d.name) := by
  cases d with
  | record kind body =>
    simp only [toJson, Json.readsAs_object, Json.entriesReadAs_cons, Json.entriesReadAs_nil,
      Json.readsAs_string] at h
    obtain ⟨_, rfl, _, _, rfl, rfl, _, _, rfl, rfl, _, _, rfl, _, rfl⟩ := h
    rfl
  | enumeration e =>
    simp only [toJson, Enumeration.entries, Json.readsAs_object, Json.entriesReadAs_cons,
      Json.entriesReadAs_nil, Json.readsAs_string] at h
    obtain ⟨_, rfl, _, _, rfl, rfl, _, _, rfl, rfl, _, _, rfl, _, rfl⟩ := h
    rfl

instance : LawfulData Definition where
  mapRoots_mapRoots f g d := by
    cases d with
    | record kind body => simp [mapRoots_record]
    | enumeration e => rfl
  sameContent_mapRoots {f} hf d := by
    change d.shape.toType.same (shape (Declaration.mapRoots f d)).toType = true
    rw [shape_mapRoots hf, NativeType.same_refl]
  decodes d _ h := d.decodes h
  get_name d _ h := d.get_name h

end Definition

namespace Constant

instance : LawfulDeclaration Constant where
  name_mapRoots _ _ := rfl
  roots_mapRoots _ _ := rfl
  mapRoots_eq_self _ := rfl
  folds_mapRootsM _ d := .pure d

theorem decodes (d : Constant) (h : d.toJson.ReadsAs k) :
    Decodes (ofJson .tree k.sorted) (d.toJson.isFinite = true) d := by
  obtain ⟨name, expr, kind, value⟩ := d
  simp only [toJson, List.cons_append, List.nil_append, Json.readsAs_object, Json.entriesReadAs_cons,
    entriesReadAs_optional, Json.readsAs_string] at h
  obtain ⟨_, rfl, _, _, rfl, rfl, _, _, rfl, rfl, _, _, rfl, rfl, kv, rfl, hvalue⟩ := h
  have hsorted : (Json.object (("name", .string name) :: ("value", .string expr) :: ("kind", .string kind.word) ::
      optional "resolved" id kv)).sorted =
      .object (("kind", .string kind.word) :: ("name", .string name) ::
        (optional "resolved" Json.sorted kv ++ [("value", .string expr)])) := by
    cases kv <;> rfl
  have hname := decodes_text name
  have hexpr := decodes_text expr
  have hkind : Decodes (ConstantKind.ofJson .tree (.string kind.word)) True kind :=
    .of_eq (by cases kind <;> rfl)
  rw [hsorted]
  refine Decodes.congr (.record (.field rfl rfl hkind (.field rfl rfl hname (.optionalField rfl rfl rfl hvalue
    (TypedLiteral.decodes_optional .tree) (.field rfl (by cases kv <;> rfl) hexpr .done))))
    (by cases kv <;> rfl)) ?_
  simp [toJson, Json.isFinite, Json.isFiniteEntries, isFiniteEntries_optional]

theorem get_name (d : Constant) (h : d.toJson.ReadsAs k) : k.sorted.get? "name" = some (.string d.name) := by
  simp only [toJson, List.cons_append, List.nil_append, Json.readsAs_object, Json.entriesReadAs_cons,
    entriesReadAs_optional, Json.readsAs_string] at h
  obtain ⟨_, rfl, _, _, rfl, rfl, _, _, rfl, rfl, _, _, rfl, rfl, kv, rfl, _⟩ := h
  cases kv <;> rfl

theorem same_refl (d : Constant) : d.same d = true := by
  have hvalue : sameOption TypedLiteral.same d.value d.value = true := by
    cases d.value with
    | none => rfl
    | some v => exact v.same_refl
  simp [same, hvalue]

instance : LawfulData Constant where
  mapRoots_mapRoots _ _ _ := rfl
  sameContent_mapRoots _ d := d.same_refl
  decodes d _ h := d.decodes h
  get_name d _ h := d.get_name h

end Constant

namespace Procedure

theorem decodes (p : Procedure) (h : p.toJson.ReadsAs k) :
    Decodes (ofJson .tree k.sorted) (p.toJson.isFinite = true) (Declaration.mapRoots NativeType.unlinked p) := by
  obtain ⟨name, returns, params, convention, module⟩ := p
  simp only [toJson, NativeType.paramsJson_eq_map, List.cons_append, List.nil_append, Json.readsAs_object,
    Json.entriesReadAs_cons, entriesReadAs_optional_append, entriesReadAs_optional, Json.readsAs_string,
    Json.readsAs_array] at h
  obtain ⟨_, rfl, _, _, rfl, rfl, kt, _, rfl, hkt, _, _, rfl, ⟨ks, rfl, hks⟩, kc, _, rfl, hconvention, km, rfl,
    hmodule⟩ := h
  have hsorted : (Json.object (("name", .string name) :: ("return_type", kt) :: ("params", .array ks) ::
      (optional "calling_convention" id kc ++ optional "source_module" id km))).sorted =
      .object (optional "calling_convention" Json.sorted kc ++ (("name", .string name) ::
        ("params", .array (Json.sortedItems ks)) :: ("return_type", kt.sorted) ::
        (optional "source_module" Json.sorted km ++ []))) := by
    cases kc <;> cases km <;> rfl
  have hname := decodes_text name
  have hreturns := returns.readsType_ofJson .tree _ kt hkt (Nat.lt_succ_self _)
  have hparams := decodes_params .tree hks (Nat.le_refl _) fun p _ => p.type.readsType_ofJson .tree _
  rw [hsorted, mapRoots_eq]
  refine Decodes.congr (.record (.optionalField rfl rfl rfl hconvention (CallingConvention.decodes .tree)
    (.field rfl (by cases kc <;> rfl) hname (.field rfl (by cases kc <;> rfl) hparams
      (.field rfl (by cases kc <;> rfl) hreturns (.optionalField rfl (by cases kc <;> rfl) rfl hmodule
        decodes_optionalText .done))))) (by cases kc <;> cases km <;> rfl)) ?_
  simp [toJson, NativeType.paramsJson_eq_map, CallingConvention.toJson, isFiniteEntries_optional_append,
    isFiniteEntries_optional, Json.isFinite, Json.isFiniteEntries, Json.isFiniteItems_eq_all, and_comm]

theorem get_name (p : Procedure) (h : p.toJson.ReadsAs k) : k.sorted.get? "name" = some (.string p.name) := by
  simp only [toJson, List.cons_append, List.nil_append, Json.readsAs_object, Json.entriesReadAs_cons,
    entriesReadAs_optional_append, entriesReadAs_optional, Json.readsAs_string] at h
  obtain ⟨_, rfl, _, _, rfl, rfl, _, _, rfl, _, _, _, rfl, _, kc, _, rfl, _, km, rfl, _⟩ := h
  cases kc <;> cases km <;>
    rfl

instance : LawfulData Procedure where
  mapRoots_mapRoots f g p := by simp [mapRoots_eq]
  sameContent_mapRoots {f} hf p := by
    change p.shape.same (shape (Declaration.mapRoots f p)) = true
    rw [shape_mapRoots hf]
    simp [same, NativeType.same_refl, NativeType.sameParams_refl]
  decodes p _ h := p.decodes h
  get_name p _ h := p.get_name h

end Procedure

end HeaderBinding
