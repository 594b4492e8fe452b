import HeaderBinding.Proofs.Expr.Typing
import HeaderBinding.Proofs.Resolve.Valuation

namespace HeaderBinding

theorem TypedLiteral.integer?_ne_none {n : Int} (hlow : -2 ^ 63 ≤ n) (hhigh : n < 2 ^ 64) : integer? n ≠ none := by
  have hwide : ∃ t ∈ LiteralType.widening, t.holds n = true := by
    by_cases h : 0 ≤ n
    · exact ⟨.uint64, by decide, LiteralType.holds_uint64 h hhigh⟩
    · exact ⟨.int64, by decide, (LiteralType.holds_iff rfl).mpr ⟨hlow, by omega⟩⟩
  cases hnarrowest : LiteralType.narrowest? n with
  | none =>
    obtain ⟨t, ht, hholds⟩ := hwide
    exact absurd hholds (by simpa using List.find?_eq_none.mp hnarrowest t ht)
  | some t =>
    have hholds : t.holds n = true := List.find?_some (p := (LiteralType.holds · n)) hnarrowest
    simp [integer?, hnarrowest, integerAs?, hholds]

theorem TypedLiteral.successor_ne_error {v : TypedLiteral} {n : Int} (hv : v.literal.toInt? = some n)
    (hlow : -2 ^ 63 ≤ n + 1) (hhigh : n + 1 < 2 ^ 64) (e : EvalError) : v.successor ≠ .error e := by
  unfold successor
  rw [hv]
  dsimp only
  split
  · nofun
  · split
    · nofun
    · next hnone => exact absurd hnone (integer?_ne_none hlow hhigh)

theorem Item.mem_ofMembers (before : List Enumerator) (m : Enumerator) (after : List Enumerator)
    (last : Option String) :
    ∃ last', ⟨m.name, .of last' m.expr, m.value⟩ ∈ ofMembers last (before ++ m :: after) := by
  induction before generalizing last with
  | nil => exact ⟨last, List.mem_cons_self ..⟩
  | cons m' rest ih =>
    obtain ⟨last', h⟩ := ih (some m'.name)
    exact ⟨last', List.mem_cons_of_mem _ h⟩

theorem Item.mem_ofMembers_after (before : List Enumerator) (m m' : Enumerator) (after : List Enumerator)
    (last : Option String) :
    ⟨m'.name, .of (some m.name) m'.expr, m'.value⟩ ∈ ofMembers last (before ++ m :: m' :: after) := by
  induction before generalizing last with
  | nil => exact List.mem_cons_of_mem _ (List.mem_cons_self ..)
  | cons _ rest ih => exact List.mem_cons_of_mem _ (ih _)

namespace Store

variable {s : Store} {f : Values}

structure Complete (s : Store) (ctx : EvalContext) : Prop where
  constant : ∀ c ∈ s.constants.toList, c.value = none → ∃ e, evaluateText ctx c.expr = .error e
  written : ∀ x ∈ s.enumerations, ∀ m ∈ x.2.members, m.value = none → ∀ expr, m.expr = some expr →
    ∃ e, evaluateText ctx expr = .error e
  first : ∀ x ∈ s.enumerations, ∀ m rest, x.2.members = m :: rest → m.expr = none → m.value ≠ none
  next : ∀ x ∈ s.enumerations, ∀ before m m' after, x.2.members = before ++ m :: m' :: after →
    m'.expr = none → ∀ v, m.value = some v → ∀ n, v.literal.toInt? = some n → -2 ^ 63 ≤ n + 1 → n + 1 < 2 ^ 64 →
    m'.value ≠ none

theorem item_mem_of_constant {c : Constant} (h : c ∈ s.constants.toList) : c.item ∈ s.items := by
  rw [items_eq_enumerations]
  exact List.mem_append_left _ (List.mem_map_of_mem h)

theorem item_mem_of_enumeration {x : Key × Enumeration} (h : x ∈ s.enumerations) {i : Item} (hi : i ∈ x.2.items) :
    i ∈ s.items := by
  rw [items_eq_enumerations]
  exact List.mem_append_right _ (List.mem_flatMap.mpr ⟨x, h, hi⟩)

theorem complete_of_settled {t : Store} {ctx : EvalContext}
    (hfound : ∀ i ∈ t.items, ∀ v, i.value = some v → ctx.value i.name = .found v)
    (hfails : ∀ i ∈ t.items, i.value = none → ∃ e, i.evaluate ctx = .error e) : t.Complete ctx where
  constant c hc hnone := hfails c.item (item_mem_of_constant hc) hnone
  written x hx m hm hnone expr hexpr := by
    obtain ⟨before, after, hmembers⟩ := List.append_of_mem hm
    obtain ⟨last, hmem⟩ := Item.mem_ofMembers before m after none
    rw [← hmembers, hexpr] at hmem
    exact hfails _ (item_mem_of_enumeration hx hmem) hnone
  first x hx m rest hmembers hexpr hnone := by
    have hmem : (⟨m.name, .of none m.expr, m.value⟩ : Item) ∈ x.2.items := by
      rw [Enumeration.items, hmembers]
      exact List.mem_cons_self ..
    rw [hexpr] at hmem
    obtain ⟨e, he⟩ := hfails _ (item_mem_of_enumeration hx hmem) hnone
    cases he
  next x hx before m m' after hmembers hexpr v hv n hn hlow hhigh hnone := by
    obtain ⟨last, hmem⟩ := Item.mem_ofMembers before m (m' :: after) none
    have hmem' := Item.mem_ofMembers_after before m m' after none
    rw [← hmembers] at hmem hmem'
    rw [hexpr] at hmem'
    have hbefore : ctx.value m.name = .found v := hfound _ (item_mem_of_enumeration hx hmem) v hv
    obtain ⟨e, he⟩ := hfails _ (item_mem_of_enumeration hx hmem') hnone
    simp only [Item.evaluate, Rule.of, hbefore] at he
    exact TypedLiteral.successor_ne_error hn hlow hhigh e he

theorem complete_valuate (hc : Coherent s.items) :
    (s.valuate none).1.Complete ((s.valuate none).1.knowledge.context s.castTarget) := by
  obtain ⟨f, hf, -⟩ := exists_solution hc
  rw [(hf.store_eq hc).1, hf.context_eq hc]
  refine complete_of_settled ?_ ?_ <;> rw [items_assign, List.forall_mem_map]
  · intro i _ v hv
    simp only [contextOf, show f (i.assign f).name = some v from hv]
  · intro i hi hnone
    cases hev : (i.assign f).evaluate (contextOf s.castTarget s.rules f) with
    | error e => exact ⟨e, rfl⟩
    | ok v => exact absurd hev (hf.closed i.bare (List.mem_map_of_mem hi) hnone v)

theorem complete_valuate_of_copies :
    let e : Enumeration := ⟨"E", [⟨"A", some "2", none⟩, ⟨"D", none, none⟩, ⟨"F", some "C", none⟩]⟩
    let constants : List Constant := [⟨"B", "D + 1", .declared, none⟩, ⟨"A", "2", .preprocessor, none⟩,
      ⟨"C", "1 / 0", .preprocessor, none⟩]
    let s : Store := { ofConstants constants with
      typedefs := Table.empty.insert ⟨"P", .pointer (.enumeration e)⟩
      definitions := Table.empty.insert (.enumeration e) }
    Coherent s.items ∧ (s.valuate none).1.Complete ((s.valuate none).1.knowledge.context s.castTarget) := by
  intro e constants s
  have hitems : s.items = constants.map Constant.item ++ (e.items ++ e.items) := by
    simp [s, items, ofConstants, Table.toList, Table.insert, Table.empty]
  have hc : Coherent s.items := by
    rw [hitems]
    simp [Coherent, constants, e, Enumeration.items, Item.ofMembers, Rule.of, Constant.item]
  exact ⟨hc, complete_valuate hc⟩

end Store

end HeaderBinding
