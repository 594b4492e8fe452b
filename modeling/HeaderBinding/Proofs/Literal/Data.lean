import HeaderBinding.Literal.Data
import HeaderBinding.Proofs.Json.Decode

namespace HeaderBinding

open Json (need may)

theorem Json.toAdjacent_object {α : Type} {form : Form} {tag content word : String} {words : List String}
    {read : String → Form → Json → Decoded α} {j : Json} (hne : content ≠ tag)
    (hword : words.contains word = true) :
    toAdjacent form tag content words read (.object [(tag, .string word), (content, j)]) =
      read word form j := by
  cases h : read word form j <;>
    simp_all [toAdjacent, toAdjacent.start, toAdjacent.afterTag, toVariant, noMore, Except.bind, Except.pure,
      bind, pure]

theorem LiteralType.decodes (t : LiteralType) {k : Json} (h : t.toJson.ReadsAs k) (form : Json.Form) :
    Decodes (ofJson form k.sorted) True t := by
  obtain rfl := Json.readsAs_string.mp h
  exact .of_eq (by cases t <;> rfl)

namespace Literal

theorem decodes_content (l : Literal) {k : Json} (h : l.contentJson.ReadsAs k) :
    Decodes (ofContent l.word k.sorted) (l.contentJson.isFinite = true) l := by
  cases l with
  | int n =>
    obtain rfl := Json.readsAs_integer.mp h
    have hread : (Json.integer n.toInt).toInteger Int64.minValue.toInt Int64.maxValue.toInt = .ok n.toInt :=
      if_pos ⟨n.le_toInt, n.toInt_le⟩
    refine Decodes.congr (.of_eq ?_) (by simp [contentJson, Json.isFinite])
    rw [Json.sorted, word, ofContent, hread]
    simp [Except.map]
  | uint n =>
    obtain rfl := Json.readsAs_integer.mp h
    have hlt : n.toNat < 2 ^ 64 := n.toNat_lt
    have hle : (n.toNat : Int) ≤ UInt64.size - 1 := by
      rw [UInt64.size]
      omega
    have hread : (Json.integer n.toNat).toInteger 0 (UInt64.size - 1) = .ok n.toNat :=
      if_pos ⟨Int.natCast_nonneg _, hle⟩
    refine Decodes.congr (.of_eq ?_) (by simp [contentJson, Json.isFinite])
    have hword : UInt64.ofInt n.toNat = n := by
      rw [UInt64.ofInt, Int.emod_eq_of_lt (Int.natCast_nonneg _) (by omega), Int.toNat_natCast, UInt64.ofNat_toNat]
    rw [Json.sorted, word, ofContent, hread]
    exact congrArg (fun n => Except.ok (uint n)) hword
  | single x | double x =>
    cases k with
    | null => exact ⟨fun hc => by simp_all [contentJson, Json.isFinite, Json.ReadsAs], fun _ => ⟨_, rfl⟩⟩
    | double y =>
      obtain ⟨hx, rfl⟩ := h
      exact Decodes.congr (.of_eq rfl) (iff_true_intro hx)
    | _ => exact h.elim
  | char c =>
    obtain rfl := Json.readsAs_string.mp h
    refine Decodes.congr (.of_eq ?_) (by simp [contentJson, Json.isFinite])
    simp [ofContent, word, Json.toCharacter, Json.sorted, Except.map]
  | string s =>
    obtain rfl := Json.readsAs_string.mp h
    exact Decodes.congr (.of_eq rfl) (by simp [contentJson, Json.isFinite])
  | bool b =>
    obtain rfl := Json.readsAs_bool.mp h
    exact Decodes.congr (.of_eq rfl) (by simp [contentJson, Json.isFinite])

theorem decodes (l : Literal) {k : Json} (h : l.toJson.ReadsAs k) (form : Json.Form) :
    Decodes (ofJson form k.sorted) (l.toJson.isFinite = true) l := by
  simp only [toJson, Json.readsAs_object, Json.entriesReadAs_cons, Json.entriesReadAs_nil] at h
  obtain ⟨_, rfl, kw, _, rfl, hkw, kc, _, rfl, hkc, rfl⟩ := h
  obtain rfl := Json.readsAs_string.mp hkw
  have hcontent := l.decodes_content hkc
  have hsorted : (Json.object [("kind", .string l.word), ("value", kc)]).sorted =
      .object [("kind", .string l.word), ("value", kc.sorted)] := by
    rfl
  rw [hsorted, ofJson, Json.toAdjacent_object (by decide) (by cases l <;> rfl)]
  exact hcontent.congr (by simp [toJson, Json.isFinite, Json.isFiniteEntries])

end Literal

theorem TypedLiteral.decodes (v : TypedLiteral) {k : Json} (h : v.toJson.ReadsAs k) (form : Json.Form) :
    Decodes (ofJson form k.sorted) (v.toJson.isFinite = true) v := by
  simp only [toJson, Json.readsAs_object, Json.entriesReadAs_cons, Json.entriesReadAs_nil] at h
  obtain ⟨_, rfl, kl, _, rfl, hkl, kt, _, rfl, hkt, rfl⟩ := h
  have hsorted : (Json.object [("literal", kl), ("type", kt)]).sorted =
      .object [("literal", kl.sorted), ("type", kt.sorted)] := by
    rfl
  rw [hsorted, ofJson]
  have hliteral := v.literal.decodes hkl form
  have htype := v.type.decodes hkt form
  refine Decodes.congr (.record (.field rfl rfl hliteral (.field rfl rfl htype .done)) rfl) ?_
  simp [toJson, Json.isFinite, Json.isFiniteEntries, LiteralType.toJson]

end HeaderBinding
