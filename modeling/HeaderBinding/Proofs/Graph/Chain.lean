import HeaderBinding.Graph.Unwrapping
import HeaderBinding.Proofs.Graph.Way
import Mathlib.Data.Set.Operations

namespace HeaderBinding

variable {s : Store} {x y : NativeType} {names : List String}

def NativeType.chainKey? : NativeType → Option Key
  | .synonym name _ => some (.synonym name)
  | .named r =>
    match r.target with
    | some (.declaration k) => some k
    | _ => none
  | _ => none

inductive Chain (s : Store) : NativeType → List String → NativeType → Prop where
  | here (x : NativeType) : Chain s x [] x
  | synonym {name : String} {target y : NativeType} {names : List String} : Chain s target names y →
      Chain s (.synonym name target) (name :: names) y
  | typedef {r : Reference} {d : Typedef} {y : NativeType} {names : List String} :
      s.follow? r = some (.synonym d) → Chain s d.target names y → Chain s (.named r) (d.name :: names) y

def Revisits (s : Store) (x : NativeType) : Prop :=
  ∃ names y name, Chain s x names y ∧ y.chainKey? = some (.synonym name) ∧ name ∈ names

def chainKeys (s : Store) (x : NativeType) : Set Key :=
  {k | ∃ names y, Chain s x names y ∧ y.chainKey? = some k}

theorem Store.follow?_eq_some {r : Reference} {n : Node} :
    s.follow? r = some n ↔ ∃ k, r.target = some (.declaration k) ∧ s.node? k = some n := by
  unfold follow?
  cases r.target with
  | none => simp
  | some target => cases target <;> simp

theorem NativeType.chainKey?_named {r : Reference} {k : Key} (h : r.target = some (.declaration k)) :
    (named r).chainKey? = some k := by
  rw [chainKey?, h]

theorem Chain.of_chainKey?_eq_none (h : Chain s x names y) (hkey : x.chainKey? = none) : names = [] ∧ y = x := by
  cases h with
  | here _ => exact ⟨rfl, rfl⟩
  | synonym _ => cases hkey
  | typedef hd _ =>
    obtain ⟨k, htarget, -⟩ := Store.follow?_eq_some.mp hd
    cases hkey.symm.trans (NativeType.chainKey?_named htarget)

theorem Chain.mem_chainKeys (h : Chain s x names y) {name : String} (hname : name ∈ names) :
    Key.synonym name ∈ chainKeys s x := by
  induction h with
  | here x => cases hname
  | synonym _ ih =>
    rcases List.mem_cons.mp hname with rfl | hname
    · exact ⟨[], _, .here _, rfl⟩
    · obtain ⟨names', y', hchain, hkey⟩ := ih hname
      exact ⟨_, y', .synonym hchain, hkey⟩
  | typedef hd _ ih =>
    rcases List.mem_cons.mp hname with rfl | hname
    · obtain ⟨k, htarget, hk⟩ := Store.follow?_eq_some.mp hd
      rw [(Store.typedef_of_node? hk).2] at htarget
      exact ⟨[], _, .here _, NativeType.chainKey?_named htarget⟩
    · obtain ⟨names', y', hchain, hkey⟩ := ih hname
      exact ⟨_, y', .typedef hd hchain, hkey⟩

namespace Unwrapping

variable {u : Unwrapping} {c c' : Canonical}

def carried (synonym owner : Option String) (isConst : Bool) (c : Canonical) : Canonical :=
  ⟨c.denoted, synonym.or c.synonym, c.owner.or owner, isConst || c.isConst⟩

theorem carried_of (synonym owner : Option String) (isConst : Bool) (d : Denoted) :
    carried synonym owner isConst (.of d) = ⟨d, synonym, owner, isConst⟩ := by
  simp [carried, Canonical.of]

theorem carried_through (synonym owner : Option String) (isConst : Bool) (c : Canonical) (name : String) :
    carried synonym owner isConst (c.through name) = carried (synonym.or (some name)) (some name) isConst c := by
  unfold carried Canonical.through
  cases synonym <;> cases c.owner <;> rfl

theorem carried_qualified (synonym owner : Option String) (isConst isConst' : Bool) (c : Canonical) :
    carried synonym owner isConst (c.qualified isConst') = carried synonym owner (isConst || isConst') c := by
  simp [carried, Canonical.qualified, Bool.or_assoc]

theorem finishes_of_leads {seen : Seen} (h : Leads s seen x c) (synonym owner : Option String) (isConst : Bool) :
    Finishes s ⟨x, seen, synonym, owner, isConst⟩ (carried synonym owner isConst c) := by
  -- One turn of the loop for each rule on the way; what it has gathered by then is wrapped around the rest.
  induction h generalizing synonym owner isConst with
  | builtin seen b =>
    rw [carried_of]
    exact .now rfl
  | structural seen hx =>
    rw [carried_of]
    refine .now ?_
    rename_i x
    cases x with
    | builtin b => cases hx
    | synonym name target => cases hx
    | named r => cases hx
    | _ => rfl
  | again target hseen =>
    rw [carried_of]
    exact .now (by simp [turn, hseen, finish])
  | synonym hseen _ ih =>
    rw [carried_through]
    exact .later (by simp [turn, hseen, enter]) (ih _ _ _)
  | unlinked seen htarget =>
    rw [carried_qualified, carried_of]
    exact .now (by simp [turn, htarget, finish])
  | spelled seen htarget =>
    rw [carried_qualified, carried_of]
    exact .now (by simp [turn, htarget, finish])
  | cycle htarget hseen =>
    rw [carried_qualified, carried_of]
    exact .now (by simp [turn, htarget, hseen, finish])
  | missing htarget hseen hk =>
    rw [carried_qualified, carried_of]
    exact .now (by simp [turn, htarget, hseen, hk, finish])
  | definition htarget hseen hk =>
    rw [carried_qualified, carried_of]
    exact .now (by simp [turn, htarget, hseen, hk, finish])
  | typedef htarget hseen hk _ ih =>
    rw [carried_qualified, carried_through]
    exact .later (by simp [turn, htarget, hseen, hk, enter]) (ih _ _ _)

theorem Finishes.eq (h : Finishes s u c) (h' : Finishes s u c') : c = c' := by
  induction h with
  | now hc =>
    cases h' with
    | now hc' => exact Sum.inl.inj (hc.symm.trans hc')
    | later hv _ => cases hc.symm.trans hv
  | later hv _ ih =>
    cases h' with
    | now hc' => cases hv.symm.trans hc'
    | later hv' h' =>
      cases hv.symm.trans hv'
      exact ih h'

theorem finishes_start_iff : Finishes s (.start x) c ↔ c = x.canonical s := by
  have hends : Finishes s (.start x) (x.canonical s) := by
    have h := finishes_of_leads (leads_canonicalFrom s .nothing x) none none false
    simpa [carried, start, NativeType.canonical] using h
  constructor
  · intro h
    exact h.eq hends
  · rintro rfl
    exact hends

end Unwrapping

namespace Seen

theorem has_add {seen : Seen} {k l : Key} : (seen.add l).has k = true ↔ l.digest = k.digest ∨ seen.has k = true := by
  simp only [has, add, List.contains_cons, Bool.or_eq_true, beq_iff_eq, eq_comm (a := k.digest)]

def addAll (seen : Seen) (names : List String) : Seen :=
  names.foldl (fun seen name => seen.add (.synonym name)) seen

theorem has_addAll {seen : Seen} {k : Key} : (seen.addAll names).has k = true ↔
    seen.has k = true ∨ ∃ name ∈ names, (Key.synonym name).digest = k.digest := by
  induction names generalizing seen with
  | nil => simp [addAll]
  | cons name names ih =>
    have hrest : seen.addAll (name :: names) = (seen.add (.synonym name)).addAll names := rfl
    rw [hrest, ih, has_add]
    simp only [List.mem_cons, exists_eq_or_imp, or_assoc, or_left_comm]

end Seen

def Meets (s : Store) (seen : Seen) (x : NativeType) : Prop :=
  ∃ names y k, Chain s x names y ∧ y.chainKey? = some k ∧ (seen.addAll names).has k = true

section

variable {seen : Seen}

theorem meets_of_has {k : Key} (hkey : x.chainKey? = some k) (hhas : seen.has k = true) : Meets s seen x :=
  ⟨[], x, k, .here x, hkey, hhas⟩

theorem not_meets_of_chainKey?_eq_none (hkey : x.chainKey? = none) : ¬Meets s seen x := by
  rintro ⟨names, y, k, hchain, hk, -⟩
  obtain ⟨-, rfl⟩ := hchain.of_chainKey?_eq_none hkey
  cases hkey.symm.trans hk

theorem meets_named_iff {r : Reference} {k : Key} (htarget : r.target = some (.declaration k))
    (hend : ∀ d, s.node? k ≠ some (.synonym d)) : Meets s seen (.named r) ↔ seen.has k = true := by
  have hown := NativeType.chainKey?_named htarget
  refine ⟨?_, meets_of_has hown⟩
  rintro ⟨names, y, l, hchain, hkey, hhas⟩
  cases hchain with
  | here _ =>
    cases hown.symm.trans hkey
    exact hhas
  | typedef hd _ =>
    obtain ⟨k', htarget', hk'⟩ := Store.follow?_eq_some.mp hd
    cases htarget.symm.trans htarget'
    exact absurd hk' (hend _)

theorem meets_synonym_iff {name : String} {target : NativeType} : Meets s seen (.synonym name target) ↔
    seen.has (.synonym name) = true ∨ Meets s (seen.add (.synonym name)) target := by
  constructor
  · rintro ⟨names, y, k, hchain, hkey, hhas⟩
    cases hchain with
    | here _ =>
      cases hkey
      exact .inl hhas
    | synonym hchain => exact .inr ⟨_, y, k, hchain, hkey, hhas⟩
  · rintro (hhas | ⟨names, y, k, hchain, hkey, hhas⟩)
    · exact meets_of_has rfl hhas
    · exact ⟨_, y, k, .synonym hchain, hkey, hhas⟩

theorem meets_typedef_iff {r : Reference} {k : Key} {d : Typedef} (htarget : r.target = some (.declaration k))
    (hk : s.node? k = some (.synonym d)) :
    Meets s seen (.named r) ↔ seen.has k = true ∨ Meets s (seen.add k) d.target := by
  have hd : s.follow? r = some (.synonym d) := Store.follow?_eq_some.mpr ⟨k, htarget, hk⟩
  have hown := NativeType.chainKey?_named htarget
  rw [(Store.typedef_of_node? hk).2] at hown ⊢
  constructor
  · rintro ⟨names, y, l, hchain, hkey, hhas⟩
    cases hchain with
    | here _ =>
      cases hown.symm.trans hkey
      exact .inl hhas
    | typedef hd' hchain =>
      cases hd.symm.trans hd'
      exact .inr ⟨_, y, l, hchain, hkey, hhas⟩
  · rintro (hhas | ⟨names, y, l, hchain, hkey, hhas⟩)
    · exact meets_of_has hown hhas
    · exact ⟨_, y, l, .typedef hd hchain, hkey, hhas⟩

variable {c : Canonical}

theorem Leads.cycle_iff_meets (h : Leads s seen x c) : (∃ name, c.denoted = .cycle name) ↔ Meets s seen x := by
  induction h with
  | builtin seen b => exact iff_of_false (by rintro ⟨_, ⟨⟩⟩) (not_meets_of_chainKey?_eq_none rfl)
  | structural seen hx =>
    refine iff_of_false (by rintro ⟨_, ⟨⟩⟩) (not_meets_of_chainKey?_eq_none ?_)
    rename_i x
    cases x with
    | synonym name target => cases hx
    | named r => cases hx
    | _ => rfl
  | again target hseen => exact iff_of_true ⟨_, rfl⟩ (meets_synonym_iff.mpr (.inl hseen))
  | synonym hseen _ ih =>
    rw [meets_synonym_iff, ← ih]
    simp [hseen, Canonical.through]
  | unlinked seen htarget =>
    refine iff_of_false (by rintro ⟨_, ⟨⟩⟩) (not_meets_of_chainKey?_eq_none ?_)
    rw [NativeType.chainKey?, htarget]
  | spelled seen htarget =>
    refine iff_of_false (by rintro ⟨_, ⟨⟩⟩) (not_meets_of_chainKey?_eq_none ?_)
    rw [NativeType.chainKey?, htarget]
  | cycle htarget hseen => exact iff_of_true ⟨_, rfl⟩ (meets_of_has (NativeType.chainKey?_named htarget) hseen)
  | missing htarget hseen hk =>
    rw [meets_named_iff htarget (by simp [hk]), hseen]
    exact iff_of_false (by rintro ⟨_, ⟨⟩⟩) Bool.false_ne_true
  | definition htarget hseen hk =>
    rw [meets_named_iff htarget (by simp [hk]), hseen]
    exact iff_of_false (by rintro ⟨_, ⟨⟩⟩) Bool.false_ne_true
  | typedef htarget hseen hk _ ih =>
    rw [meets_typedef_iff htarget hk, ← ih]
    simp [hseen, Canonical.through, Canonical.qualified]

end

theorem meets_nothing_iff (hapart : Set.InjOn Key.digest (chainKeys s x)) : Meets s .nothing x ↔ Revisits s x := by
  constructor
  · rintro ⟨names, y, k, hchain, hkey, hhas⟩
    obtain hnothing | ⟨name, hname, hdigest⟩ := Seen.has_addAll.mp hhas
    · cases hnothing
    · have hk : Key.synonym name = k := hapart (hchain.mem_chainKeys hname) ⟨names, y, hchain, hkey⟩ hdigest
      exact ⟨names, y, name, hchain, hk ▸ hkey, hname⟩
  · rintro ⟨names, y, name, hchain, hkey, hname⟩
    exact ⟨names, y, _, hchain, hkey, Seen.has_addAll.mpr (.inr ⟨name, hname, rfl⟩)⟩

theorem Leads.isStructural {seen : Seen} {c : Canonical} (h : Leads s seen x c) {t : NativeType}
    (ht : c.denoted = .structural t) : t.isStructural = true := by
  induction h with
  | structural seen hx =>
    cases ht
    exact hx
  | synonym _ _ ih => exact ih ht
  | typedef _ _ _ _ ih => exact ih ht
  | _ => cases ht

theorem Store.canonical_outcome (s : Store) :
    (∀ x c, Unwrapping.Finishes s (.start x) c ↔ c = x.canonical s) ∧
      (∀ (x t : NativeType), (x.canonical s).denoted = .structural t → t.isStructural = true) ∧
      (∀ r d, s.follow? r = some (.synonym d) → (∀ name, ((NativeType.named r).canonical s).denoted ≠ .cycle name) →
        (NativeType.named r).canonical s =
          { denoted := (d.target.canonical s).denoted
            synonym := some d.name
            owner := some ((d.target.canonical s).owner.getD d.name)
            isConst := r.isConst || (d.target.canonical s).isConst }) ∧
      ∀ x, Set.InjOn Key.digest (chainKeys s x) →
        ((∃ name, (x.canonical s).denoted = .cycle name) ↔ Revisits s x) := by
  refine ⟨fun x c => Unwrapping.finishes_start_iff, ?_, ?_, ?_⟩
  · intro x t ht
    exact (leads_canonicalFrom s .nothing x).isStructural ht
  · intro r d hd hcycle
    exact NativeType.canonical_named_typedef hd hcycle
  · intro x hapart
    rw [← meets_nothing_iff hapart]
    exact (leads_canonicalFrom s .nothing x).cycle_iff_meets

def typedefNamed (name : String) (qualifiers : Qualifiers) : Reference :=
  ⟨name, some (.declaration (.synonym name)), qualifiers⟩

def ring : Store :=
  let typedefs : List Typedef :=
    [⟨"A", .named (typedefNamed "B" .empty)⟩, ⟨"B", .named (typedefNamed "A" .empty)⟩,
      ⟨"WORD", .builtin ⟨.int16, true⟩⟩]
  { Store.empty with typedefs := ⟨typedefs.toArray, Table.indexOf typedefs⟩ }

theorem follow?_ring (name : String) (qualifiers : Qualifiers) : ring.follow? (typedefNamed name qualifiers) =
    (ring.typedefs.toList.find? (Declaration.name · == name)).map .synonym := by
  have hindexed : ring.typedefs.Indexed := Table.indexed_indexOf _ (by decide)
  unfold Store.follow? Store.node? typedefNamed
  dsimp only [Key.synonym]
  rw [hindexed.get?_eq]

def ringed : NativeType :=
  .synonym "A" (.named (typedefNamed "B" .empty))

theorem Chain.on_ring (h : Chain ring x names y)
    (hx : x = ringed ∨ x = .named (typedefNamed "A" .empty) ∨ x = .named (typedefNamed "B" .empty)) :
    y = ringed ∨ y = .named (typedefNamed "A" .empty) ∨ y = .named (typedefNamed "B" .empty) := by
  induction h with
  | here x => exact hx
  | synonym _ ih =>
    rcases hx with hx | hx | hx <;> cases hx
    exact ih (.inr (.inr rfl))
  | typedef hd _ ih =>
    rcases hx with hx | hx | hx <;> cases hx
    · cases (follow?_ring "A" .empty).symm.trans hd
      exact ih (.inr (.inr rfl))
    · cases (follow?_ring "B" .empty).symm.trans hd
      exact ih (.inr (.inl rfl))

theorem chainKeys_ringed {k : Key} (h : k ∈ chainKeys ring ringed) : k = .synonym "A" ∨ k = .synonym "B" := by
  obtain ⟨names, y, hchain, hkey⟩ := h
  rcases hchain.on_ring (.inl rfl) with rfl | rfl | rfl <;> cases hkey
  · exact .inl rfl
  · exact .inl rfl
  · exact .inr rfl

theorem canonical_outcome_ring :
    (∃ name, (ringed.canonical ring).denoted = .cycle name) ∧
      (NativeType.named (typedefNamed "WORD" .const)).canonical ring =
        ⟨.builtin ⟨.int16, true⟩, some "WORD", some "WORD", true⟩ := by
  obtain ⟨-, -, hlaw, hcycles⟩ := ring.canonical_outcome
  constructor
  · have hapart : Set.InjOn Key.digest (chainKeys ring ringed) := by
      have hdigests : (Key.synonym "A").digest ≠ (Key.synonym "B").digest := by decide +kernel
      intro k hk l hl hdigest
      rcases chainKeys_ringed hk with rfl | rfl <;> rcases chainKeys_ringed hl with rfl | rfl
      · rfl
      · exact absurd hdigest hdigests
      · exact absurd hdigest.symm hdigests
      · rfl
    have hback : Chain ring ringed ["A", "B"] (.named (typedefNamed "A" .empty)) :=
      .synonym (.typedef (follow?_ring "B" .empty) (.here _))
    exact (hcycles ringed hapart).mpr ⟨_, _, "A", hback, rfl, List.mem_cons_self⟩
  · have hword := follow?_ring "WORD" .const
    obtain ⟨k, htarget, hk⟩ := Store.follow?_eq_some.mp hword
    have hnothing : Seen.nothing.has k = false := rfl
    have hends := (Leads.typedef htarget hnothing hk (.builtin _ ⟨.int16, true⟩)).eq
    have hlaw := hlaw _ _ hword fun name => by
      rw [NativeType.canonical, hends]
      exact Denoted.noConfusion
    rwa [NativeType.canonical, NativeType.canonicalFrom] at hlaw

end HeaderBinding
