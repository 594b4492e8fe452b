import HeaderBinding.Proofs.Emission.Invariant
import HeaderBinding.Proofs.Native.Rewrite

namespace HeaderBinding

namespace Taken

def Grows (taken taken' : Taken) : Prop :=
  taken.Within taken' ∧ taken.size ≤ taken'.size

theorem Grows.refl (taken : Taken) : taken.Grows taken :=
  ⟨.refl taken, Nat.le_refl _⟩

theorem Grows.trans {taken taken' taken'' : Taken} (h : taken.Grows taken') (h' : taken'.Grows taken'') :
    taken.Grows taken'' :=
  ⟨h.1.trans h'.1, Nat.le_trans h.2 h'.2⟩

theorem grows_insert {taken : Taken} {name : String} (h : name ∉ taken) (body : NativeType) :
    taken.Grows (taken.insert name body) :=
  ⟨within_insert h body, by rw [Std.HashMap.size_insert]; split <;> omega⟩

theorem mem_of_eq {taken : Taken} {name : String} {body : NativeType} (h : taken[name]? = some body) :
    name ∈ taken := by
  rw [Std.HashMap.mem_iff_isSome_getElem?, h]
  rfl

theorem Within.mem {taken taken' : Taken} (h : taken.Within taken') {name : String} (hname : name ∈ taken) :
    name ∈ taken' := by
  rw [Std.HashMap.mem_iff_isSome_getElem?, Option.isSome_iff_exists] at hname
  obtain ⟨body, hbody⟩ := hname
  exact mem_of_eq (h name body hbody)

def Holds (taken : Taken) (name : String) (body : NativeType) : Prop :=
  ∃ n, 1 ≤ n ∧ (∀ i, 1 ≤ i → i < n → Draft.offer name i ∈ taken) ∧ taken.StandsFor (Draft.offer name n) body

theorem Holds.grows {taken taken' : Taken} {name : String} {body : NativeType} (h : taken.Holds name body)
    (hgrows : taken.Grows taken') : taken'.Holds name body := by
  obtain ⟨n, hn, hoffers, hstands⟩ := h
  exact ⟨n, hn, fun i hi hlt => hgrows.1.mem (hoffers i hi hlt), hstands.within hgrows.1⟩

def Apart (image : NativeType → NativeType) (taken : Taken) : Prop :=
  ∀ (name : String) (i j : Nat) (held body : NativeType), 1 ≤ i → i < j →
    taken[Draft.offer name i]? = some held → taken.StandsFor (Draft.offer name j) body →
    (held.mapChildren image).same (body.mapChildren image) = true → held.same body = true

end Taken

namespace Draft

variable {image : NativeType → NativeType} {d d' : Draft}

structure Mirrors (image : NativeType → NativeType) (d d' : Draft) : Prop where
  eq : d' = { d with taken := d'.taken }
  getElem?_taken : ∀ name : String, d'.taken[name]? = (d.taken[name]?).map (NativeType.mapChildren image)
  size_taken : d'.taken.size = d.taken.size

theorem mirrors_empty (image : NativeType → NativeType) : empty.Mirrors image empty where
  eq := rfl
  getElem?_taken name := by simp [empty]
  size_taken := rfl

theorem Mirrors.update (h : d.Mirrors image d') {f : Draft → Draft}
    (hf : ∀ d taken, f { d with taken := taken } = { f d with taken := taken }) : (f d).Mirrors image (f d') := by
  have htaken : ∀ d : Draft, (f d).taken = d.taken := by
    intro d
    have h := congrArg Draft.taken (hf d d.taken)
    exact h
  constructor
  · rw [htaken d', ← hf, ← h.eq]
  · rw [htaken d, htaken d']
    exact h.getElem?_taken
  · rw [htaken d, htaken d']
    exact h.size_taken

theorem le_choose (taken : Taken) (name : String) (body : NativeType) (n tries : Nat) :
    n ≤ (choose taken name body n tries).1 := by
  induction tries generalizing n with
  | zero => exact Nat.le_refl _
  | succ tries ih =>
    rw [choose]
    split
    · exact Nat.le_refl _
    · split
      · exact Nat.le_refl _
      · exact Nat.le_of_succ_le (ih (n + 1))

theorem choose_passed {taken : Taken} {name : String} {body : NativeType} {n tries i : Nat} (hi : n ≤ i)
    (hlt : i < (choose taken name body n tries).1) :
    ∃ held, taken[offer name i]? = some held ∧ held.same body = false := by
  induction tries generalizing n with
  | zero => exact absurd hlt (Nat.not_lt.mpr hi)
  | succ tries ih =>
    rw [choose] at hlt
    cases hoffer : taken[offer name n]? with
    | none =>
      rw [hoffer] at hlt
      exact absurd hlt (Nat.not_lt.mpr hi)
    | some held =>
      rw [hoffer] at hlt
      dsimp only at hlt
      by_cases hheld : held.same body = true
      · rw [if_pos hheld] at hlt
        exact absurd hlt (Nat.not_lt.mpr hi)
      · rw [if_neg hheld] at hlt
        rcases Nat.eq_or_lt_of_le hi with rfl | hi
        · exact ⟨held, hoffer, by simpa using hheld⟩
        · exact ih hi hlt

theorem choose_image {taken taken' : Taken}
    (htaken : ∀ name : String, taken'[name]? = (taken[name]?).map (NativeType.mapChildren image))
    (hsame : ∀ x y : NativeType, x.same y = true → (x.mapChildren image).same (y.mapChildren image) = true)
    (name : String) (body : NativeType) (n tries : Nat)
    (happart : ∀ i, n ≤ i → i < (choose taken name body n tries).1 → ∀ held, taken[offer name i]? = some held →
      (held.mapChildren image).same (body.mapChildren image) = true → held.same body = true) :
    choose taken' name (body.mapChildren image) n tries = choose taken name body n tries := by
  induction tries generalizing n with
  | zero => rfl
  | succ tries ih =>
    rw [choose] at happart
    rw [choose, choose, htaken]
    cases hoffer : taken[offer name n]? with
    | none => rfl
    | some held =>
      rw [hoffer] at happart
      dsimp only [Option.map_some] at happart ⊢
      by_cases hheld : held.same body = true
      · rw [if_pos hheld, if_pos (hsame held body hheld)]
      · rw [if_neg hheld] at happart ⊢
        have hlater := le_choose taken name body (n + 1) tries
        have hdiffer : ¬(held.mapChildren image).same (body.mapChildren image) = true := fun h =>
          hheld (happart n (Nat.le_refl n) (by omega) held hoffer h)
        rw [if_neg hdiffer]
        exact ih (n + 1) fun i hi => happart i (Nat.le_of_succ_le hi)

theorem claim_spec (name : String) (body : NativeType) (d : Draft) :
    d.taken.Grows (claim name body d).2.taken ∧
      (claim name body d).2.taken.StandsFor (offer name (choose d.taken name body 1 (d.taken.size + 1)).1) body := by
  unfold claim
  rcases choose_spec body (exists_free_offer d.taken name) with
    ⟨hfree, hgiven⟩ | ⟨hfree, hheld⟩
  · dsimp only
    rw [if_pos hfree]
    exact ⟨Taken.grows_insert hgiven body, Taken.standsFor_of_eq Std.HashMap.getElem?_insert_self⟩
  · dsimp only
    rw [if_neg (by simp [hfree])]
    exact ⟨.refl _, hheld⟩

theorem holds_claim (name : String) (body : NativeType) (d : Draft) :
    (claim name body d).2.taken.Holds name body := by
  obtain ⟨hgrows, hstands⟩ := claim_spec name body d
  refine ⟨_, le_choose d.taken name body 1 (d.taken.size + 1), fun i hi hlt => ?_, hstands⟩
  obtain ⟨held, hheld, -⟩ := choose_passed hi hlt
  exact Taken.mem_of_eq (hgrows.1 _ _ hheld)

theorem claim_of_holds {name : String} {body : NativeType} (h : d.taken.Holds name body) :
    ∃ given, claim name body d = ((given, false), d) := by
  obtain ⟨n, hn, hoffers, held, hheld, hsame⟩ := h
  rcases choose_spec body (exists_free_offer d.taken name) with ⟨-, hfree⟩ | ⟨hfree, -⟩
  · have hpassed : n < (choose d.taken name body 1 (d.taken.size + 1)).1 := by
      refine Nat.lt_of_le_of_ne (Nat.le_of_not_lt fun hlt => ?_) fun heq => ?_
      · exact hfree (hoffers _ (le_choose ..) hlt)
      · rw [← heq] at hfree
        exact hfree (Taken.mem_of_eq hheld)
    obtain ⟨held', hheld', hdiffers⟩ := choose_passed hn hpassed
    obtain rfl : held' = held := Option.some.inj (hheld'.symm.trans hheld)
    rw [hsame] at hdiffers
    cases hdiffers
  · refine ⟨offer name (choose d.taken name body 1 (d.taken.size + 1)).1, ?_⟩
    unfold claim
    dsimp only
    rw [if_neg (by simp [hfree])]

theorem claim_image (hsame : ∀ x y : NativeType, x.same y = true →
      (x.mapChildren image).same (y.mapChildren image) = true) {final : Taken} (hfinal : final.Apart image)
    (name : String) (body : NativeType) (hwithin : (claim name body d).2.taken.Within final)
    (h : d.Mirrors image d') :
    (claim name (body.mapChildren image) d').1 = (claim name body d).1 ∧
      (claim name body d).2.Mirrors image (claim name (body.mapChildren image) d').2 := by
  obtain ⟨hgrows, hstands⟩ := claim_spec name body d
  have hchoose : choose d'.taken name (body.mapChildren image) 1 (d'.taken.size + 1) =
      choose d.taken name body 1 (d.taken.size + 1) := by
    rw [h.size_taken]
    refine choose_image h.getElem?_taken hsame name body 1 _ fun i hi hlt held hheld => ?_
    exact hfinal name i _ held body hi hlt (hwithin _ _ (hgrows.1 _ _ hheld)) (hstands.within hwithin)
  unfold claim
  rw [hchoose]
  generalize choose d.taken name body 1 (d.taken.size + 1) = chosen
  obtain ⟨n, free⟩ := chosen
  cases free with
  | false => exact ⟨rfl, h⟩
  | true =>
    refine ⟨rfl, ?_, fun other => ?_, ?_⟩
    · dsimp only
      rw [if_pos rfl, if_pos rfl, h.eq]
    · dsimp only
      rw [if_pos rfl, if_pos rfl]
      simp only [Std.HashMap.getElem?_insert, h.getElem?_taken]
      split <;> rfl
    · dsimp only
      rw [if_pos rfl, if_pos rfl]
      have hmem : offer name n ∈ d'.taken ↔ offer name n ∈ d.taken := by
        simp only [Std.HashMap.mem_iff_isSome_getElem?, h.getElem?_taken, Option.isSome_map]
      simp only [Std.HashMap.size_insert, h.size_taken, hmem]

end Draft

def Follows (image : NativeType → NativeType) (ready : Taken → Prop) (final : Taken) {α : Type}
    (step step' : Emit α) : Prop :=
  ∀ (d : Draft) (a : α) (e : Draft), step d = some (a, e) → d.taken.Grows e.taken ∧
    (ready d.taken → e.taken.Within final → ∀ d', d.Mirrors image d' →
      ∃ e', step' d' = some (a, e') ∧ e.Mirrors image e')

namespace Follows

variable {image : NativeType → NativeType} {ready : Taken → Prop} {final : Taken} {α β : Type}

theorem pure (a : α) : Follows image ready final (Pure.pure a) (Pure.pure a) := by
  intro d b e hrun
  cases hrun
  exact ⟨.refl _, fun _ _ d' hd => ⟨d', rfl, hd⟩⟩

theorem bindReady {ready' : Taken → Prop} {x x' : Emit α} {f f' : α → Emit β} (hx : Follows image ready final x x')
    (hready : ∀ d a e, x d = some (a, e) → ready d.taken → ready' e.taken)
    (hf : ∀ a, Follows image ready' final (f a) (f' a)) : Follows image ready final (x >>= f) (x' >>= f') := by
  intro d b e hrun
  obtain ⟨a, m, ha, hb⟩ := Emit.bind_eq_some hrun
  obtain ⟨hgrows, hfollows⟩ := hx d a m ha
  obtain ⟨hgrows', hfollows'⟩ := hf a m b e hb
  refine ⟨hgrows.trans hgrows', fun hd hfinal d' hmirrors => ?_⟩
  obtain ⟨m', ha', hm⟩ := hfollows hd (hgrows'.1.trans hfinal) d' hmirrors
  obtain ⟨e', hb', he⟩ := hfollows' (hready d a m ha hd) hfinal m' hm
  exact ⟨e', (Emit.bind_eq ha').trans hb', he⟩

theorem bind (hready : ∀ taken taken', Taken.Grows taken taken' → ready taken → ready taken')
    {x x' : Emit α} {f f' : α → Emit β} (hx : Follows image ready final x x')
    (hf : ∀ a, Follows image ready final (f a) (f' a)) : Follows image ready final (x >>= f) (x' >>= f') :=
  hx.bindReady (fun d a e hrun => hready _ _ (hx d a e hrun).1) hf

theorem modify {f : Draft → Draft} (hf : ∀ d taken, f { d with taken := taken } = { f d with taken := taken }) :
    Follows image ready final (modify f) (modify f) := by
  intro d b e hrun
  cases hrun
  have htaken : (f d).taken = d.taken := by
    have h := congrArg Draft.taken (hf d d.taken)
    exact h
  refine ⟨htaken ▸ .refl _, fun _ _ d' hd => ⟨f d', rfl, hd.update hf⟩⟩

theorem get {f f' : Draft → Emit β}
    (hf : ∀ d taken, Follows image ready final (f d) (f' { d with taken := taken })) :
    Follows image ready final (do f (← get)) (do f' (← get)) := by
  intro d b e hrun
  refine ⟨(hf d d.taken d b e hrun).1, fun hd hfinal d' hmirrors => ?_⟩
  obtain ⟨e', he', he⟩ := (hf d d'.taken d b e hrun).2 hd hfinal d' hmirrors
  rw [← hmirrors.eq] at he'
  exact ⟨e', he', he⟩

theorem claim (hsame : ∀ x y : NativeType, x.same y = true →
      (x.mapChildren image).same (y.mapChildren image) = true) (hfinal : final.Apart image) (name : String)
    (body : NativeType) : Follows image ready final (modifyGet (Draft.claim name body))
      (modifyGet (Draft.claim name (body.mapChildren image))) := by
  intro d b e hrun
  have hclaim : Draft.claim name body d = (b, e) := Option.some.inj hrun
  obtain ⟨hgrows, -⟩ := Draft.claim_spec name body d
  rw [hclaim] at hgrows
  refine ⟨hgrows, fun _ hwithin d' hd => ?_⟩
  obtain ⟨hgiven, hmirrors⟩ := Draft.claim_image hsame hfinal name body (hclaim ▸ hwithin) hd
  rw [hclaim] at hgiven hmirrors
  exact ⟨(Draft.claim name (body.mapChildren image) d').2, congrArg some (Prod.ext hgiven rfl), hmirrors⟩

end Follows

end HeaderBinding
