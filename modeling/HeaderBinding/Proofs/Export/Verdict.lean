import HeaderBinding.Proofs.Export.Record
import HeaderBinding.Proofs.Export.Search

namespace HeaderBinding

namespace ExportSource

def offers (s : ExportSource) (name module : String) : Bool :=
  match s.read module with
  | .ok table => table.exports name
  | .error _ => false

def refusal? (s : ExportSource) (module : String) : Option ExportError :=
  match s.read module with
  | .ok _ => none
  | .error e => if e.isSkippable then none else some e

def verdict (s : ExportSource) (modules : List String) (name : String) : ExportResult :=
  match (modules.takeWhile (!s.offers name ·)).findSome? s.refusal? with
  | some e => .error e
  | none =>
    match modules.filter (s.offers name) with
    | [] => .ok none
    | module :: shadowed => .ok (some ⟨module, shadowed⟩)

variable (s : ExportSource) (name module : String)

theorem state_cases :
    (∃ table, ModuleState.of (s.read module) = .opened table ∧ table.module = module ∧
        s.offers name module = table.exports name ∧ s.refusal? module = none) ∨
      (ModuleState.of (s.read module) = .absent ∧ s.offers name module = false ∧ s.refusal? module = none) ∨
      ∃ e, ModuleState.of (s.read module) = .unreadable e ∧ s.offers name module = false ∧
        s.refusal? module = some e := by
  have hmodule : ∀ table, s.read module = .ok table → table.module = module := by
    intro table hread
    unfold read at hread
    split at hread
    · cases hread
    · split at hread
      · cases hread
        rfl
      · cases hread
  unfold offers refusal?
  cases hread : s.read module with
  | ok table => exact .inl ⟨table, rfl, hmodule table hread, rfl, rfl⟩
  | error e =>
    cases e with
    | moduleNotFound missing => exact .inr (.inl ⟨rfl, rfl, rfl⟩)
    | acquire failing reason => exact .inr (.inr ⟨_, rfl, rfl, rfl⟩)
    | parse failing reason => exact .inr (.inr ⟨_, rfl, rfl, rfl⟩)

theorem search_some (first : ExportMatch) (modules : List String) :
    s.search name (some first) modules =
      .ok (some ⟨first.module, first.shadowed ++ modules.filter (s.offers name)⟩) := by
  induction modules generalizing first with
  | nil => rw [List.filter_nil, List.append_nil]; rfl
  | cons module rest ih =>
    rw [search]
    rcases s.state_cases name module with ⟨table, hstate, hmodule, hoffers, -⟩ | ⟨hstate, hoffers, -⟩ |
      ⟨e, hstate, hoffers, -⟩
    · rw [hstate]
      dsimp only
      by_cases hexports : table.exports name = true
      · rw [if_pos hexports, ih, List.filter_cons_of_pos (hoffers.trans hexports), hmodule]
        simp only [ExportMatch.found, List.append_assoc, List.singleton_append]
      · rw [if_neg hexports, ih, List.filter_cons_of_neg (hoffers ▸ hexports)]
    · rw [hstate, List.filter_cons_of_neg (by simp [hoffers])]
      exact ih first
    · rw [hstate, List.filter_cons_of_neg (by simp [hoffers])]
      exact ih first

theorem search_none (modules : List String) : s.search name none modules = s.verdict modules name := by
  induction modules with
  | nil => rfl
  | cons module rest ih =>
    rw [search]
    rcases s.state_cases name module with ⟨table, hstate, hmodule, hoffers, hrefusal⟩ |
      ⟨hstate, hoffers, hrefusal⟩ | ⟨e, hstate, hoffers, hrefusal⟩
    · rw [hstate]
      dsimp only
      by_cases hexports : table.exports name = true
      · rw [if_pos hexports, search_some, hmodule]
        simp [verdict, ExportMatch.found, hoffers, hexports]
      · rw [if_neg hexports, ih]
        simp [verdict, hoffers, hexports, hrefusal]
    · rw [hstate]
      simp only [ih, verdict, hoffers, hrefusal, Bool.not_false, List.takeWhile_cons, List.filter_cons, if_true,
        List.findSome?_cons, Bool.false_eq_true, if_false]
    · rw [hstate]
      simp [verdict, hoffers, hrefusal]

end ExportSource

namespace ExportSearch

theorem findAll_spec {s : ExportSource} {modules : List String} {x : ExportSearch} (h : Faithful s modules x)
    (names : List String) : (Inquiry.findAll names x).1 = names.map (s.search · none modules) := by
  induction names generalizing x with
  | nil => rfl
  | cons name rest ih =>
    obtain ⟨hresult, hx⟩ := find_spec h name
    rw [Inquiry.findAll, mapM_cons_apply]
    exact congrArg₂ List.cons hresult (ih hx)

end ExportSearch

end HeaderBinding
