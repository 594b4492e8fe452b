import HeaderBinding.Proofs.Store.FastLoad

namespace HeaderBinding

open Declaration (name category)

namespace Table

variable {α : Type} [Declaration α] {t : Table α}

structure Faithful (t : Table α) : Prop where
  distinct : (t.toList.map name).Nodup
  index : ∀ n i, t.index[n]? = some i ↔ (t.toList[i]?).map name = some n
  get? : ∀ n, t.get? n = t.toList.find? (name · = n)
  unique : ∀ n a, t.get? n = some a ↔ a ∈ t.toList ∧ name a = n
  contains : ∀ n, t.contains n = t.toList.any (name · = n)

theorem Indexed.faithful (h : t.Indexed) : t.Faithful where
  distinct := h.nodup
  index := h
  get? := h.get?_eq
  unique _ _ := h.get?_eq_some_iff
  contains n := by
    rw [h.contains_eq, Bool.eq_iff_iff, Option.isSome_iff_exists, List.any_eq_true]
    simp only [h.get?_eq_some_iff, decide_eq_true_eq]

end Table

namespace Entry

def key : Entry → Key
  | .synonym d => Declaration.key d
  | .definition d => Declaration.key d
  | .constant d => Declaration.key d
  | .procedure d => Declaration.key d

variable {α : Type} [Declaration α] (entry : α → Entry) (hkey : ∀ a, (entry a).key = Declaration.key a)

include hkey

theorem find?_map (as : List α) (k : Key) : (as.map entry).find? (·.key = k) =
    if k.category = category α then (as.find? (name · == k.name)).map entry else none := by
  split
  · next hk =>
    have hpred : ((fun e : Entry => decide (e.key = k)) ∘ entry) = fun a => name a == k.name := by
      funext a
      rw [Function.comp_apply, hkey, Bool.eq_iff_iff, decide_eq_true_iff, beq_iff_eq]
      exact ⟨congrArg Key.name, fun hname => congrArg₂ Key.mk hk.symm hname⟩
    rw [List.find?_map, hpred]
  · next hk =>
    refine List.find?_eq_none.mpr fun e he => ?_
    obtain ⟨a, -, rfl⟩ := List.mem_map.mp he
    rw [hkey, decide_eq_true_iff]
    exact fun heq => hk (congrArg Key.category heq).symm

theorem filter_map (as : List α) (k : Key) :
    (as.map entry).filter (·.key ≠ k) = (as.filter (Declaration.key · != k)).map entry := by
  rw [List.filter_map]
  refine congrArg (List.map entry) (List.filter_congr fun a _ => ?_)
  simp [hkey, bne, Bool.beq_eq_decide_eq]

end Entry

namespace Store

def entries (s : Store) : List Entry :=
  s.typedefs.toList.map .synonym ++ s.definitions.toList.map .definition ++ s.constants.toList.map .constant ++
    s.procedures.toList.map .procedure

variable {s : Store}

theorem find?_eq (h : s.Indexed) (k : Key) : s.find? k = s.entries.find? (·.key = k) := by
  rw [entries, List.find?_append, List.find?_append, List.find?_append, Entry.find?_map .synonym fun _ => rfl,
    Entry.find?_map .definition fun _ => rfl, Entry.find?_map .constant fun _ => rfl,
    Entry.find?_map .procedure fun _ => rfl]
  obtain ⟨category, n⟩ := k
  cases category with
  | synonym => simp [find?, category, h.typedefs.get?_eq]
  | definedType => simp [find?, category, h.definitions.get?_eq]
  | constant => simp [find?, category, h.constants.get?_eq]
  | procedure => simp [find?, category, h.procedures.get?_eq]

theorem contains_eq (h : s.Indexed) (k : Key) : s.contains k = (s.find? k).isSome := by
  obtain ⟨category, n⟩ := k
  cases category with
  | synonym => exact (h.typedefs.contains_eq n).trans Option.isSome_map.symm
  | definedType => exact (h.definitions.contains_eq n).trans Option.isSome_map.symm
  | constant => exact (h.constants.contains_eq n).trans Option.isSome_map.symm
  | procedure => exact (h.procedures.contains_eq n).trans Option.isSome_map.symm

theorem entries_remove (h : s.Indexed) (k : Key) : (s.remove k).2.entries = s.entries.filter (·.key ≠ k) := by
  rw [remove_eq, entries, entries, h.typedefs.toList_without, h.definitions.toList_without,
    h.constants.toList_without, h.procedures.toList_without, List.filter_append, List.filter_append, List.filter_append,
    Entry.filter_map .synonym fun _ => rfl, Entry.filter_map .definition fun _ => rfl,
    Entry.filter_map .constant fun _ => rfl, Entry.filter_map .procedure fun _ => rfl]

theorem missing_eq (h : s.Indexed) (ks : List Key) : s.missing ks = ks.filter fun k => (s.find? k).isNone := by
  refine List.filter_congr fun k _ => ?_
  rw [contains_eq h, Option.not_isSome]

structure LooksUp (s : Store) : Prop where
  typedefs : s.typedefs.Faithful
  definitions : s.definitions.Faithful
  constants : s.constants.Faithful
  procedures : s.procedures.Faithful
  find : ∀ k, s.find? k = s.entries.find? (·.key = k)
  contains : ∀ k, s.contains k = (s.find? k).isSome
  missing : ∀ ks, s.missing ks = ks.filter fun k => (s.find? k).isNone
  removed : ∀ k, (s.remove k).1 = s.find? k
  remaining : ∀ k, (s.remove k).2.entries = s.entries.filter (·.key ≠ k)
  gone : ∀ k, (s.remove k).2.find? k = none
  others : ∀ k k', k' ≠ k → (s.remove k).2.find? k' = s.find? k'
  untouched : ∀ k, ∃ t d c p,
    (s.remove k).2 = { s with typedefs := t, definitions := d, constants := c, procedures := p }

theorem Sound.looksUp (h : s.Sound) : s.LooksUp where
  typedefs := h.typedefs.faithful
  definitions := h.definitions.faithful
  constants := h.constants.faithful
  procedures := h.procedures.faithful
  find := find?_eq h.toIndexed
  contains := contains_eq h.toIndexed
  missing := missing_eq h.toIndexed
  removed := fst_remove h.toIndexed
  remaining := entries_remove h.toIndexed
  gone k := by
    rw [find?_eq (sound_remove h k).toIndexed, entries_remove h.toIndexed, List.find?_filter]
    exact List.find?_eq_none.mpr fun e _ => by simp
  others k k' hne := by
    rw [find?_eq (sound_remove h k).toIndexed, find?_eq h.toIndexed, entries_remove h.toIndexed, List.find?_filter]
    refine congrArg (s.entries.find? ·) (funext fun e => ?_)
    rw [decide_eq_decide, decide_eq_true_iff, decide_eq_true_iff]
    exact and_iff_right_of_imp fun hkey heq => hne (hkey.symm.trans heq)
  untouched k := ⟨_, _, _, _, remove_eq s k⟩

end Store

end HeaderBinding
