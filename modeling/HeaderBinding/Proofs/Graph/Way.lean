import HeaderBinding.Proofs.Graph.Canonical

namespace HeaderBinding

inductive Leads (s : Store) : Seen → NativeType → Canonical → Prop where
  | builtin (seen : Seen) (b : Builtin) : Leads s seen (.builtin b) (.of (.builtin b))
  | structural (seen : Seen) {x : NativeType} : x.isStructural = true → Leads s seen x (.of (.structural x))
  | again {seen : Seen} {name : String} (target : NativeType) : seen.has (.synonym name) = true →
      Leads s seen (.synonym name target) (.of (.cycle name))
  | synonym {seen : Seen} {name : String} {target : NativeType} {c : Canonical} :
      seen.has (.synonym name) = false → Leads s (seen.add (.synonym name)) target c →
      Leads s seen (.synonym name target) (c.through name)
  | unlinked (seen : Seen) {r : Reference} : r.target = none →
      Leads s seen (.named r) (.qualified r.isConst (.of (.unresolved r.name)))
  | spelled (seen : Seen) {r : Reference} {b : Builtin} : r.target = some (.builtin b) →
      Leads s seen (.named r) (.qualified r.isConst (.of (.builtin b)))
  | cycle {seen : Seen} {r : Reference} {k : Key} : r.target = some (.declaration k) → seen.has k = true →
      Leads s seen (.named r) (.qualified r.isConst (.of (.cycle r.name)))
  | missing {seen : Seen} {r : Reference} {k : Key} : r.target = some (.declaration k) → seen.has k = false →
      s.node? k = none → Leads s seen (.named r) (.qualified r.isConst (.of (.unresolved r.name)))
  | definition {seen : Seen} {r : Reference} {k : Key} {d : Definition} : r.target = some (.declaration k) →
      seen.has k = false → s.node? k = some (.definition d) →
      Leads s seen (.named r) (.qualified r.isConst (.of (.definition d)))
  | typedef {seen : Seen} {r : Reference} {k : Key} {d : Typedef} {c : Canonical} :
      r.target = some (.declaration k) → seen.has k = false → s.node? k = some (.synonym d) →
      Leads s (seen.add k) d.target c → Leads s seen (.named r) (.qualified r.isConst (c.through d.name))

variable {s : Store} {seen : Seen} {x : NativeType} {c : Canonical}

theorem leads_canonicalFrom (s : Store) (seen : Seen) (x : NativeType) : Leads s seen x (x.canonicalFrom s seen) := by
  induction seen, x using NativeType.canonicalFrom.induct s with
  | case1 seen b =>
    rw [NativeType.canonicalFrom]
    exact .builtin seen b
  | case2 seen name target hseen =>
    rw [NativeType.canonicalFrom_synonym, if_pos hseen]
    exact .again target hseen
  | case3 seen name target hseen ih =>
    rw [NativeType.canonicalFrom_synonym, if_neg hseen]
    exact .synonym (by simpa using hseen) ih
  | case4 seen r ih =>
    rw [NativeType.canonicalFrom_named]
    unfold Reference.canonicalFrom
    cases htarget : r.target with
    | none => exact .unlinked seen htarget
    | some target =>
      cases target with
      | builtin b => exact .spelled seen htarget
      | declaration k =>
        dsimp only
        by_cases hseen : seen.has k = true
        · rw [if_pos hseen]
          exact .cycle htarget hseen
        · rw [if_neg hseen]
          have hunseen : seen.has k = false := by simpa using hseen
          cases hk : s.node? k with
          | none => exact .missing htarget hunseen hk
          | some node =>
            cases node with
            | definition d => exact .definition htarget hunseen hk
            | synonym d => exact .typedef htarget hunseen hk (ih k hseen d hk)
  | case5 seen x hbuiltin hsynonym hnamed =>
    have hx : x.isStructural = true := NativeType.isStructural_of_ne hbuiltin hsynonym hnamed
    rw [NativeType.canonicalFrom_of_isStructural s seen hx]
    exact .structural seen hx

theorem Leads.eq (h : Leads s seen x c) : x.canonicalFrom s seen = c := by
  induction h with
  | builtin seen b => rw [NativeType.canonicalFrom]
  | structural seen hx => exact NativeType.canonicalFrom_of_isStructural s seen hx
  | again target hseen => rw [NativeType.canonicalFrom_synonym, if_pos hseen]
  | synonym hseen _ ih => rw [NativeType.canonicalFrom_synonym, if_neg (by simp [hseen]), ih]
  | unlinked seen htarget => rw [NativeType.canonicalFrom_named, Reference.canonicalFrom, htarget]
  | spelled seen htarget => rw [NativeType.canonicalFrom_named, Reference.canonicalFrom, htarget]
  | cycle htarget hseen => simp only [NativeType.canonicalFrom_named, Reference.canonicalFrom, htarget, hseen, if_true]
  | missing htarget hseen hk =>
    simp [NativeType.canonicalFrom_named, Reference.canonicalFrom, htarget, hseen, hk]
  | definition htarget hseen hk =>
    simp [NativeType.canonicalFrom_named, Reference.canonicalFrom, htarget, hseen, hk]
  | typedef htarget hseen hk _ ih =>
    simp [NativeType.canonicalFrom_named, Reference.canonicalFrom, htarget, hseen, hk, ih]

theorem Seen.has_add_imp {seen seen' : Seen} (h : ∀ k, seen'.has k = true → seen.has k = true) (l : Key) :
    ∀ k, (seen'.add l).has k = true → (seen.add l).has k = true := by
  intro k hk
  simp only [Seen.has, Seen.add, List.contains_cons, Bool.or_eq_true] at hk ⊢
  exact hk.imp_right (h k)

theorem Leads.of_less (h : Leads s seen x c) (hcycle : ∀ name, c.denoted ≠ .cycle name) {seen' : Seen}
    (hless : ∀ k, seen'.has k = true → seen.has k = true) : Leads s seen' x c := by
  have hunseen {seen seen' : Seen} (hless : ∀ k, seen'.has k = true → seen.has k = true) {k : Key}
      (hk : seen.has k = false) : seen'.has k = false := by
    rw [← Bool.not_eq_true]
    exact fun hk' => Bool.false_ne_true (hk.symm.trans (hless k hk'))
  induction h generalizing seen' with
  | builtin _ b => exact .builtin seen' b
  | structural _ hx => exact .structural seen' hx
  | again target _ => exact absurd rfl (hcycle _)
  | synonym hseen _ ih => exact .synonym (hunseen hless hseen) (ih hcycle (Seen.has_add_imp hless _))
  | unlinked _ htarget => exact .unlinked seen' htarget
  | spelled _ htarget => exact .spelled seen' htarget
  | cycle _ _ => exact absurd rfl (hcycle _)
  | missing htarget hseen hk => exact .missing htarget (hunseen hless hseen) hk
  | definition htarget hseen hk => exact .definition htarget (hunseen hless hseen) hk
  | typedef htarget hseen hk _ ih =>
    exact .typedef htarget (hunseen hless hseen) hk (ih hcycle (Seen.has_add_imp hless _))

theorem NativeType.canonical_named_typedef {r : Reference} {d : Typedef} (hd : s.follow? r = some (.synonym d))
    (hcycle : ∀ name, ((named r).canonical s).denoted ≠ .cycle name) :
    (named r).canonical s = ((d.target.canonical s).through d.name).qualified r.isConst := by
  obtain ⟨k, htarget, hk⟩ : ∃ k, r.target = some (.declaration k) ∧ s.node? k = some (.synonym d) := by
    unfold Store.follow? at hd
    split at hd
    · exact ⟨_, ‹_›, hd⟩
    · cases hd
  have hnothing : Seen.nothing.has k = false := rfl
  have heq : (named r).canonical s =
      ((d.target.canonicalFrom s (Seen.nothing.add k)).through d.name).qualified r.isConst :=
    (Leads.typedef htarget hnothing hk (leads_canonicalFrom s _ d.target)).eq
  have hforgotten : Leads s .nothing d.target (d.target.canonicalFrom s (Seen.nothing.add k)) :=
    (leads_canonicalFrom s _ d.target).of_less (fun name hname => hcycle name (by rw [heq]; exact hname))
      (fun _ hk => absurd hk Bool.false_ne_true)
  rw [heq, canonical, hforgotten.eq]

theorem Leads.mem_definitions (h : Leads s seen x c) {d : Definition} (hd : c.denoted = .definition d) :
    d ∈ s.definitions.toList := by
  induction h with
  | synonym _ _ ih => exact ih hd
  | typedef _ _ _ _ ih => exact ih hd
  | definition _ _ hk =>
    cases hd
    exact (Store.definition_of_node? hk).1
  | _ => cases hd

end HeaderBinding
