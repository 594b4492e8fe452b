import HeaderBinding.Graph.Seen
import HeaderBinding.Native.Walk

namespace HeaderBinding

namespace NativeType

noncomputable def weight : List NativeType → Nat
  | [] => 0
  | t :: ts => sizeOf t + weight ts

theorem weight_cons (t : NativeType) (ts : List NativeType) :
    weight (t :: ts) = sizeOf t + weight ts :=
  rfl

theorem weight_append (ts us : List NativeType) : weight (ts ++ us) = weight ts + weight us := by
  induction ts with
  | nil => simp [weight]
  | cons t ts ih => simp [weight, ih, Nat.add_assoc]

theorem weight_leaf {t : NativeType} (h : t.children = []) : weight t.children = 0 := by
  rw [h]; rfl

theorem weight_child {t c : NativeType} (h : t.children = [c]) : weight t.children = sizeOf c := by
  rw [h]; rfl

theorem weight_members (ms : List (Member NativeType)) : weight (ms.map (·.type)) ≤ sizeOf ms := by
  induction ms with
  | nil => simp [weight]
  | cons m rest ih =>
    obtain ⟨name, type⟩ := m
    simp [weight] at *; omega

theorem weight_params (ps : List (Parameter NativeType)) : weight (ps.map (·.type)) ≤ sizeOf ps := by
  induction ps with
  | nil => simp [weight]
  | cons p rest ih =>
    obtain ⟨name, type, direction⟩ := p
    simp [weight] at *; omega

theorem weight_children_lt (t : NativeType) : weight t.children < sizeOf t := by
  cases t with
  | builtin b => rw [weight_leaf rfl, builtin.sizeOf_spec]; omega
  | named r => rw [weight_leaf rfl, named.sizeOf_spec]; omega
  | enumeration e => rw [weight_leaf rfl, enumeration.sizeOf_spec]; omega
  | pointer pointee => rw [weight_child rfl, pointer.sizeOf_spec]; omega
  | array element rank length => rw [weight_child rfl, array.sizeOf_spec]; omega
  | synonym name target => rw [weight_child rfl, synonym.sizeOf_spec]; omega
  | record kind body =>
    obtain ⟨name, members⟩ := body
    have := weight_members members
    simp [children] at *; omega
  | function s =>
    obtain ⟨name, returns, params, convention⟩ := s
    have := weight_params params
    simp [children, weight] at *; omega

theorem weight_lt_cons (t : NativeType) (ts : List NativeType) : weight ts < weight (t :: ts) := by
  have := weight_cons t ts
  have := weight_children_lt t
  omega

def reachFrom (s : Store) (seen : Seen) (pending : List NativeType) : List Key × Seen :=
  match pending with
  | [] => ([], seen)
  | .named r :: rest =>
    match r.target with
    | some (.declaration k) =>
      if seen.has k then reachFrom s seen rest
      else
        match _ : s.node? k with
        | some n =>
          let (keys, seen) := reachFrom s (seen.add k) (n.roots ++ rest)
          (k :: keys, seen)
        | none =>
          let (keys, seen) := reachFrom s (seen.add k) rest
          (k :: keys, seen)
    | _ => reachFrom s seen rest
  | t :: rest => reachFrom s seen (t.children ++ rest)
termination_by (s.unseen seen, weight pending)
decreasing_by
  · exact Prod.Lex.right _ (weight_lt_cons _ _)
  · exact Prod.Lex.left _ _ (Store.unseen_add_lt ‹_› (by simpa using ‹¬seen.has k = true›))
  · rcases Nat.lt_or_eq_of_le (s.unseen_add_le seen k) with hl | hl
    · exact Prod.Lex.left _ _ hl
    · rw [hl]; exact Prod.Lex.right _ (weight_lt_cons _ _)
  · exact Prod.Lex.right _ (weight_lt_cons _ _)
  · refine Prod.Lex.right _ ?_
    have := weight_children_lt t
    rw [weight_append, weight_cons]
    omega

def reachable (s : Store) (seen : Seen) (t : NativeType) : List Key × Seen :=
  reachFrom s seen [t]

end NativeType

end HeaderBinding
