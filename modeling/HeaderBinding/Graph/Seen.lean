import HeaderBinding.Store.Basic

namespace HeaderBinding

structure Seen where
  digests : List UInt64

namespace Seen

def nothing : Seen := ⟨[]⟩

def has (s : Seen) (k : Key) : Bool :=
  s.digests.contains k.digest

def add (s : Seen) (k : Key) : Seen :=
  ⟨k.digest :: s.digests⟩

@[simp] theorem has_add_self (s : Seen) (k : Key) : (s.add k).has k = true := by
  simp [has, add]

theorem has_add_of_has {s : Seen} {k l : Key} (h : s.has k = true) : (s.add l).has k = true := by
  simp only [has, add, List.contains_cons, Bool.or_eq_true] at *
  exact .inr h

theorem has_eq_false_of_kept {s s' : Seen} {k : Key} (hkept : s.has k = true → s'.has k = true)
    (h : s'.has k = false) : s.has k = false := by
  refine Bool.eq_false_iff.mpr fun hseen => ?_
  rw [hkept hseen] at h
  cases h

end Seen

namespace Store

def nodeKeys (s : Store) : List Key :=
  s.typedefs.toList.map (Key.synonym ·.name) ++ s.definitions.toList.map (Key.definedType ·.name)

theorem node?_cases {s : Store} {k : Key} {n : Node} (h : s.node? k = some n) :
    (∃ d ∈ s.typedefs.toList, k = .synonym d.name ∧ n = .synonym d) ∨
      ∃ d ∈ s.definitions.toList, k = .definedType d.name ∧ n = .definition d := by
  obtain ⟨category, name⟩ := k
  unfold node? at h
  cases category with
  | synonym =>
    obtain ⟨d, hd, rfl⟩ := Option.map_eq_some_iff.1 h
    obtain ⟨hm, hn⟩ := Table.mem_of_get?_eq_some hd
    exact .inl ⟨d, hm, congrArg Key.synonym hn.symm, rfl⟩
  | definedType =>
    obtain ⟨d, hd, rfl⟩ := Option.map_eq_some_iff.1 h
    obtain ⟨hm, hn⟩ := Table.mem_of_get?_eq_some hd
    exact .inr ⟨d, hm, congrArg Key.definedType hn.symm, rfl⟩
  | constant => cases h
  | procedure => cases h

theorem mem_nodeKeys_of_node?_eq_some {s : Store} {k : Key} {n : Node} (h : s.node? k = some n) :
    k ∈ s.nodeKeys := by
  rcases node?_cases h with ⟨d, hd, rfl, -⟩ | ⟨d, hd, rfl, -⟩
  · exact List.mem_append_left _ (List.mem_map.2 ⟨d, hd, rfl⟩)
  · exact List.mem_append_right _ (List.mem_map.2 ⟨d, hd, rfl⟩)

theorem typedef_of_node? {s : Store} {k : Key} {d : Typedef} (h : s.node? k = some (.synonym d)) :
    d ∈ s.typedefs.toList ∧ k = .synonym d.name := by
  rcases node?_cases h with ⟨d, hd, rfl, heq⟩ | ⟨d, -, -, heq⟩
  · cases heq
    exact ⟨hd, rfl⟩
  · cases heq

theorem definition_of_node? {s : Store} {k : Key} {d : Definition} (h : s.node? k = some (.definition d)) :
    d ∈ s.definitions.toList ∧ k = .definedType d.name := by
  rcases node?_cases h with ⟨d, -, -, heq⟩ | ⟨d, hd, rfl, heq⟩
  · cases heq
  · cases heq
    exact ⟨hd, rfl⟩

def unseen (s : Store) (seen : Seen) : Nat :=
  s.nodeKeys.countP fun k => !seen.has k

theorem unseen_le {s : Store} {seen seen' : Seen} (h : ∀ k, seen.has k = true → seen'.has k = true) :
    s.unseen seen' ≤ s.unseen seen := by
  apply List.countP_mono_left
  intro k _ hk
  rw [Bool.not_eq_true'] at hk ⊢
  exact Seen.has_eq_false_of_kept (h k) hk

theorem unseen_add_le (s : Store) (seen : Seen) (k : Key) : s.unseen (seen.add k) ≤ s.unseen seen :=
  unseen_le fun _ => Seen.has_add_of_has

theorem countP_lt_countP {α : Type} {p q : α → Bool} {xs : List α} {a : α} (ha : a ∈ xs)
    (hle : ∀ x ∈ xs, p x = true → q x = true) (hp : p a = false) (hq : q a = true) :
    xs.countP p < xs.countP q := by
  induction xs with
  | nil => cases ha
  | cons x xs ih =>
    have htail : ∀ y ∈ xs, p y = true → q y = true := fun y hy => hle y (List.mem_cons_of_mem _ hy)
    have hmono : xs.countP p ≤ xs.countP q := List.countP_mono_left htail
    simp only [List.countP_cons]
    rcases List.mem_cons.1 ha with rfl | ha
    · simp [hp, hq]; omega
    · have := ih ha htail
      have hx := hle x (List.mem_cons_self ..)
      cases hpx : p x with
      | false => simp; omega
      | true => simp [hx hpx]; omega

theorem unseen_add_lt {s : Store} {seen : Seen} {k : Key} {n : Node} (h : s.node? k = some n)
    (hk : seen.has k = false) : s.unseen (seen.add k) < s.unseen seen := by
  refine countP_lt_countP (mem_nodeKeys_of_node?_eq_some h) ?_ (by simp) (by simp [hk])
  intro l _ hl
  rw [Bool.not_eq_true'] at hl ⊢
  exact Seen.has_eq_false_of_kept Seen.has_add_of_has hl

end Store

end HeaderBinding
