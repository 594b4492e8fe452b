import HeaderBinding.Store.Table
import Mathlib.Data.List.Induction
import Mathlib.Data.List.Nodup

namespace HeaderBinding.Table

variable {α : Type} [Declaration α] {t u : Table α} {n : String} {a b : α} {i j : Nat}

open Declaration (name key category)

def Indexed (t : Table α) : Prop :=
  ∀ n i, t.index[n]? = some i ↔ (t.toList[i]?).map name = some n

theorem indexed_empty : (empty : Table α).Indexed := by
  intro n i
  simp [empty, toList]

theorem get?_empty (n : String) : (empty : Table α).get? n = none := by
  simp [get?, empty]

omit [Declaration α] in
theorem getElem?_entries (t : Table α) (i : Nat) : t.entries[i]? = t.toList[i]? :=
  Array.getElem?_toList.symm

@[simp] theorem toList_insert (t : Table α) (a : α) : (t.insert a).toList = t.toList ++ [a] := by
  simp [toList, insert]

omit [Declaration α] in
@[simp] theorem toList_push (t : Table α) (a : α) : (t.push a).toList = t.toList ++ [a] := by
  simp [toList, push]

omit [Declaration α] in
@[simp] theorem toList_map (t : Table α) (f : α → α) : (t.map f).toList = t.toList.map f :=
  Array.toList_map

omit [Declaration α] in
theorem map_map (t : Table α) (f g : α → α) : (t.map f).map g = t.map fun a => g (f a) := by
  simp [map, Function.comp_def]

omit [Declaration α] in
theorem map_eq_self {t : Table α} {f : α → α} (h : ∀ a ∈ t.toList, f a = a) : t.map f = t := by
  have hentries : t.entries.map f = t.entries := by
    apply Array.toList_inj.mp
    rw [Array.toList_map]
    exact (List.map_congr_left h).trans (List.map_id' t.toList)
  rw [map, hentries]

theorem get?_map {f : α → α} (hf : ∀ a, name (f a) = name a) (t : Table α) (n : String) :
    (t.map f).get? n = (t.get? n).map f := by
  simp only [get?, map, Array.getElem?_map]
  cases t.index[n]? with
  | none => rfl
  | some i =>
    dsimp only
    cases t.entries[i]? with
    | none => rfl
    | some a => by_cases hn : name a = n <;> simp [hf, hn]

theorem Indexed.map {f : α → α} (hf : ∀ a, name (f a) = name a) (h : t.Indexed) :
    (t.map f).Indexed := by
  intro n i
  rw [toList_map, List.getElem?_map, Option.map_map, Function.comp_def]
  simp only [hf]
  exact h n i

namespace Indexed

theorem eq_of_name (h : t.Indexed) (ha : t.toList[i]? = some a) (hb : t.toList[j]? = some b)
    (hab : name a = name b) : i = j := by
  have hi := (h (name a) i).mpr (by rw [ha]; rfl)
  have hj := (h (name a) j).mpr (by rw [hb, hab]; rfl)
  rw [hi] at hj
  exact Option.some.inj hj

theorem nodup (h : t.Indexed) : (t.toList.map name).Nodup := by
  rw [List.nodup_iff_pairwise_ne, List.pairwise_map, List.pairwise_iff_getElem]
  intro i j hi hj hij heq
  have := h.eq_of_name (List.getElem?_eq_getElem hi) (List.getElem?_eq_getElem hj) heq
  omega

theorem index_eq_none_iff (h : t.Indexed) : t.index[n]? = none ↔ ∀ a ∈ t.toList, name a ≠ n := by
  constructor
  · intro hn a ha hname
    obtain ⟨i, hi⟩ := List.mem_iff_getElem?.mp ha
    have := (h n i).mpr (by rw [hi, ← hname]; rfl)
    rw [hn] at this
    cases this
  · intro hn
    cases hi : t.index[n]? with
    | none => rfl
    | some i =>
      obtain ⟨a, ha, hname⟩ := Option.map_eq_some_iff.mp ((h n i).mp hi)
      exact absurd hname (hn a (List.mem_of_getElem? ha))

theorem get?_eq (h : t.Indexed) (n : String) : t.get? n = t.toList.find? (name · == n) := by
  cases hf : t.toList.find? (name · == n) with
  | none =>
    have hn : t.index[n]? = none := h.index_eq_none_iff.mpr fun a ha => by
      simpa using List.find?_eq_none.mp hf a ha
    simp [get?, hn]
  | some a =>
    have hname : name a = n := by simpa using List.find?_some hf
    obtain ⟨i, hi⟩ := List.mem_iff_getElem?.mp (List.mem_of_find?_eq_some hf)
    have hn := (h n i).mpr (by rw [hi, ← hname]; rfl)
    simp [get?, hn, getElem?_entries, hi, hname]

theorem get?_eq_some_iff (h : t.Indexed) : t.get? n = some a ↔ a ∈ t.toList ∧ name a = n := by
  constructor
  · exact mem_of_get?_eq_some
  · rintro ⟨ha, hname⟩
    obtain ⟨i, hi⟩ := List.mem_iff_getElem?.mp ha
    have hn := (h n i).mpr (by rw [hi, ← hname]; rfl)
    simp [get?, hn, getElem?_entries, hi, hname]

theorem get?_perm (ht : t.Indexed) (hu : u.Indexed) (h : t.toList.Perm u.toList) (n : String) :
    t.get? n = u.get? n := by
  apply Option.ext
  intro a
  rw [ht.get?_eq_some_iff, hu.get?_eq_some_iff, h.mem_iff]

theorem get?_eq_none_iff (h : t.Indexed) : t.get? n = none ↔ ∀ a ∈ t.toList, name a ≠ n := by
  rw [h.get?_eq, List.find?_eq_none]
  simp

theorem contains_eq (h : t.Indexed) (n : String) : t.contains n = (t.get? n).isSome := by
  rw [contains, Std.HashMap.contains_eq_isSome_getElem?]
  cases hg : t.get? n with
  | none => rw [h.index_eq_none_iff.mpr (h.get?_eq_none_iff.mp hg)]; rfl
  | some a =>
    cases hn : t.index[n]? with
    | none => simp [get?, hn] at hg
    | some i => rfl

theorem insert (h : t.Indexed) (hn : t.get? (name a) = none) : (t.insert a).Indexed := by
  have hfree := h.get?_eq_none_iff.mp hn
  intro n i
  simp only [Table.insert, toList, Array.toList_push, Std.HashMap.getElem?_insert, beq_iff_eq]
  change _ ↔ ((t.toList ++ [a])[i]?).map name = some n
  have hsize : t.entries.size = t.toList.length := by simp [toList]
  by_cases hname : name a = n
  · subst hname
    simp only [if_pos]
    constructor
    · intro hi
      rw [← Option.some.inj hi, hsize, List.getElem?_concat_length]
      rfl
    · intro hi
      obtain ⟨b, hb, hbname⟩ := Option.map_eq_some_iff.mp hi
      rcases Nat.lt_trichotomy i t.toList.length with hlt | rfl | hgt
      · rw [List.getElem?_append_left hlt] at hb
        exact absurd hbname (hfree b (List.mem_of_getElem? hb))
      · rw [hsize]
      · rw [List.getElem?_eq_none (by simp; omega)] at hb
        cases hb
  · rw [if_neg hname, h n i]
    rcases Nat.lt_trichotomy i t.toList.length with hlt | rfl | hgt
    · rw [List.getElem?_append_left hlt]
    · simp [hname]
    · rw [List.getElem?_eq_none (Nat.le_of_lt hgt), List.getElem?_eq_none (by simp; omega)]

end Indexed

theorem get?_insert_of_ne (t : Table α) (h : name a ≠ n) : (t.insert a).get? n = t.get? n := by
  simp only [get?, insert, Std.HashMap.getElem?_insert, beq_iff_eq, if_neg h]
  cases t.index[n]? with
  | none => rfl
  | some i => by_cases hi : i = t.entries.size <;> simp [Array.getElem?_push, hi, h]

theorem get?_push_of_ne (t : Table α) (h : name a ≠ n) : (t.push a).get? n = t.get? n := by
  simp only [get?, push]
  cases t.index[n]? with
  | none => rfl
  | some i => by_cases hi : i = t.entries.size <;> simp [Array.getElem?_push, hi, h]

theorem indexOf_concat (entries : List α) (a : α) :
    indexOf (entries ++ [a]) = (indexOf entries).insert (name a) entries.length := by
  simp [indexOf, List.zipIdx_append]

theorem indexed_indexOf (entries : List α) (hd : (entries.map name).Nodup) :
    Indexed ⟨entries.toArray, indexOf entries⟩ := by
  induction entries using List.reverseRecOn with
  | nil => exact indexed_empty
  | append_singleton entries a ih =>
    rw [List.map_append, List.nodup_append] at hd
    obtain ⟨hentries, -, hfresh⟩ := hd
    have h := ih hentries
    have hnone : get? ⟨entries.toArray, indexOf entries⟩ (name a) = none :=
      h.get?_eq_none_iff.mpr fun b hb => hfresh (name b) (List.mem_map_of_mem hb) (name a) (by simp)
    have hinsert := h.insert hnone
    simpa [indexOf_concat, Table.insert] using hinsert

theorem indexed_reindex (hd : (t.toList.map name).Nodup) : t.reindex.Indexed :=
  indexed_indexOf t.toList hd

theorem Indexed.index_eq_some (h : t.Indexed) (ha : t.toList[i]? = some a) :
    t.index[name a]? = some i :=
  (h (name a) i).mpr (by rw [ha]; rfl)

theorem Indexed.eraseIdx_eq_filter (h : t.Indexed) (ha : t.toList[i]? = some a) :
    t.toList.eraseIdx i = t.toList.filter (name · != name a) := by
  have hkeep : ∀ j b, j ≠ i → t.toList[j]? = some b → (name b != name a) = true := by
    intro j b hj hb
    simp only [bne_iff_ne, ne_eq]
    exact fun hname => hj (h.eq_of_name hb ha hname)
  obtain ⟨hi, hget⟩ := List.getElem?_eq_some_iff.mp ha
  have hsplit : t.toList = t.toList.take i ++ a :: t.toList.drop (i + 1) := by
    rw [← hget, List.getElem_cons_drop, List.take_append_drop]
  have htake : (t.toList.take i).filter (name · != name a) = t.toList.take i := by
    rw [List.filter_eq_self]
    intro b hb
    obtain ⟨j, hj⟩ := List.mem_iff_getElem?.mp hb
    obtain ⟨hlt, -⟩ := List.getElem?_eq_some_iff.mp hj
    rw [List.length_take] at hlt
    rw [List.getElem?_take_of_lt (by omega)] at hj
    exact hkeep j b (by omega) hj
  have hdrop : (t.toList.drop (i + 1)).filter (name · != name a) = t.toList.drop (i + 1) := by
    rw [List.filter_eq_self]
    intro b hb
    obtain ⟨j, hj⟩ := List.mem_iff_getElem?.mp hb
    rw [List.getElem?_drop] at hj
    exact hkeep (i + 1 + j) b (by omega) hj
  calc t.toList.eraseIdx i = t.toList.take i ++ t.toList.drop (i + 1) :=
        List.eraseIdx_eq_take_drop_succ t.toList i
    _ = (t.toList.take i ++ a :: t.toList.drop (i + 1)).filter (name · != name a) := by
        rw [List.filter_append, List.filter_cons_of_neg (by simp), htake, hdrop]
    _ = t.toList.filter (name · != name a) := by rw [← hsplit]

theorem Indexed.erase?_eq_none (h : t.Indexed) (hn : t.get? n = none) : t.erase? n = none := by
  simp only [erase?, h.index_eq_none_iff.mpr (h.get?_eq_none_iff.mp hn)]

theorem Indexed.erase?_eq_some (h : t.Indexed) (hn : t.get? n = some a) :
    ∃ u, t.erase? n = some (a, u) ∧ u.toList = t.toList.filter (name · != n) ∧ u.Indexed := by
  obtain ⟨ha, rfl⟩ := h.get?_eq_some_iff.mp hn
  obtain ⟨i, hi⟩ := List.mem_iff_getElem?.mp ha
  have herase : t.erase? (name a) = some (a, ⟨t.entries.eraseIdxIfInBounds i,
      (t.index.erase (name a)).map fun _ j => if i < j then j - 1 else j⟩) := by
    simp only [erase?, h.index_eq_some hi, getElem?_entries, hi]
  refine ⟨_, herase, ?_, ?_⟩
  · rw [← h.eraseIdx_eq_filter hi]
    exact Array.toList_eraseIdxIfInBounds
  · intro m j
    have hlist : toList ⟨t.entries.eraseIdxIfInBounds i,
        (t.index.erase (name a)).map fun _ j => if i < j then j - 1 else j⟩ = t.toList.eraseIdx i :=
      Array.toList_eraseIdxIfInBounds
    rw [hlist, Std.HashMap.getElem?_map, Std.HashMap.getElem?_erase, List.getElem?_eraseIdx]
    by_cases hm : name a = m
    · subst hm
      simp only [beq_self_eq_true, if_true, Option.map_none, reduceCtorEq, false_iff]
      intro hj
      obtain ⟨b, hb, hname⟩ := Option.map_eq_some_iff.mp hj
      split at hb
      · have := h.eq_of_name hb hi hname
        omega
      · have := h.eq_of_name hb hi hname
        omega
    · rw [if_neg (by simpa using hm)]
      constructor
      · intro hj
        obtain ⟨k, hk, rfl⟩ := Option.map_eq_some_iff.mp hj
        have hkm := (h m k).mp hk
        have hki : k ≠ i := by
          rintro rfl
          rw [hi] at hkm
          exact hm (Option.some.inj hkm)
        by_cases hlt : i < k
        · have : k - 1 + 1 = k := by omega
          rw [if_pos hlt, if_neg (by omega), this]
          exact hkm
        · rw [if_neg hlt, if_pos (by omega)]
          exact hkm
      · intro hj
        split at hj
        · rename_i hlt
          rw [(h m j).mpr hj, Option.map_some, if_neg (by omega)]
        · rw [(h m (j + 1)).mpr hj, Option.map_some, if_pos (by omega), Nat.add_sub_cancel]

def without (t : Table α) (k : Key) : Table α :=
  if k.category = category α then (t.erase? k.name).elim t Prod.snd else t

theorem mem_of_mem_without {k : Key} (h : a ∈ (t.without k).toList) : a ∈ t.toList := by
  unfold without erase? at h
  split at h
  · split at h
    · exact h
    · split at h
      · exact h
      · rw [Option.elim_some, toList, Array.toList_eraseIdxIfInBounds] at h
        exact List.mem_of_mem_eraseIdx h
  · exact h

theorem Indexed.fst_erase? (h : t.Indexed) (n : String) : (t.erase? n).map Prod.fst = t.get? n := by
  cases hn : t.get? n with
  | none => rw [h.erase?_eq_none hn]; rfl
  | some a =>
    obtain ⟨u, hu, -, -⟩ := h.erase?_eq_some hn
    rw [hu]
    rfl

theorem Indexed.erased (h : t.Indexed) (n : String) :
    ((t.erase? n).elim t Prod.snd).toList = t.toList.filter (name · != n) ∧
      ((t.erase? n).elim t Prod.snd).Indexed := by
  cases hn : t.get? n with
  | none =>
    rw [h.erase?_eq_none hn]
    refine ⟨(List.filter_eq_self.mpr fun a ha => ?_).symm, h⟩
    simpa using h.get?_eq_none_iff.mp hn a ha
  | some a =>
    obtain ⟨u, hu, hlist, hindexed⟩ := h.erase?_eq_some hn
    rw [hu]
    exact ⟨hlist, hindexed⟩

theorem Indexed.without (h : t.Indexed) (k : Key) : (t.without k).Indexed := by
  unfold Table.without
  split
  · exact (h.erased k.name).2
  · exact h

theorem Indexed.toList_without (h : t.Indexed) (k : Key) : (t.without k).toList = t.toList.filter (key · != k) := by
  unfold Table.without
  split
  · next hcategory =>
    rw [(h.erased k.name).1]
    refine List.filter_congr fun a _ => ?_
    rw [Bool.eq_iff_iff, bne_iff_ne, bne_iff_ne, key, ← hcategory]
    exact not_congr ⟨fun hname => by rw [hname], congrArg Key.name⟩
  · next hcategory =>
    refine (List.filter_eq_self.mpr fun a _ => ?_).symm
    rw [bne_iff_ne]
    exact fun hkey => hcategory (congrArg Key.category hkey).symm

end HeaderBinding.Table
