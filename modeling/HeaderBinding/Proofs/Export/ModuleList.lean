import HeaderBinding.Export.ModuleList

namespace HeaderBinding.ModuleList

variable {l : ModuleList} {module : String}

theorem contains_eq_false_iff : l.contains module = false ↔ ∀ a ∈ l.names, sameModule a module = false :=
  List.any_eq_false.trans (by simp only [Bool.not_eq_true])

def Distinct (l : ModuleList) : Prop :=
  l.names.Pairwise fun a b => sameModule a b = false

instance : Decidable l.Distinct :=
  inferInstanceAs (Decidable (l.names.Pairwise _))

theorem push_of_contains (h : l.contains module = true) : l.push module = l :=
  if_pos h

theorem extend_of_contains {modules : List String} (h : ∀ module ∈ modules, l.contains module = true) :
    l.extend modules = l := by
  unfold extend
  induction modules with
  | nil => rfl
  | cons module rest ih =>
    obtain ⟨hmodule, hrest⟩ := List.forall_mem_cons.mp h
    rw [List.foldl_cons, push_of_contains hmodule]
    exact ih hrest

theorem Distinct.push (h : l.Distinct) (module : String) : (l.push module).Distinct := by
  unfold ModuleList.push
  cases hcontains : l.contains module with
  | true => exact h
  | false =>
    refine List.pairwise_append.mpr ⟨h, List.pairwise_singleton _ _, fun a ha b hb => ?_⟩
    obtain rfl := List.mem_singleton.mp hb
    exact contains_eq_false_iff.mp hcontains a ha

theorem Distinct.extend (h : l.Distinct) (modules : List String) : (l.extend modules).Distinct := by
  unfold ModuleList.extend
  induction modules generalizing l with
  | nil => exact h
  | cons module rest ih => exact ih (h.push module)

theorem distinct_ofList (modules : List String) : (ofList modules).Distinct :=
  Distinct.extend .nil modules

theorem distinct_standard : standard.Distinct :=
  distinct_ofList standardNames

end HeaderBinding.ModuleList
