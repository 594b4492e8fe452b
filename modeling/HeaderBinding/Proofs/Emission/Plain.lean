import HeaderBinding.Proofs.Emission.Complete
import HeaderBinding.Proofs.Emission.Twins

namespace HeaderBinding

variable {o : EmitOptions} {s : Store} {d d' d₁ : Draft} {j : Job} {js ks : List Job} {us vs : List Marshalled}
  {name given : String} {t : NativeType}

namespace Draft

def take (name : String) (t : NativeType) (d : Draft) : Draft :=
  { d with taken := d.taken.insert name t }

def Quiet (d : Draft) : Prop :=
  d.diagnostics.ofKind .renamedType = []

theorem claim_of_free (h : name ∉ d.taken) : claim name t d = ((name, true), d.take name t) := by
  have hchoose : choose d.taken name t 1 (d.taken.size + 1) = (1, true) := by
    rw [choose]
    have hnone : d.taken[offer name 1]? = none := Std.HashMap.getElem?_eq_none h
    rw [hnone]
  unfold claim
  rw [hchoose]
  dsimp only
  rw [if_pos rfl, if_neg (Nat.lt_irrefl 1), List.append_nil]
  rfl

theorem claim_of_standsFor (h : d.taken.StandsFor name t) : claim name t d = ((name, false), d) := by
  obtain ⟨held, hheld, hsame⟩ := h
  have hchoose : choose d.taken name t 1 (d.taken.size + 1) = (1, false) := by
    rw [choose]
    have hsome : d.taken[offer name 1]? = some held := hheld
    rw [hsome]
    exact if_pos hsame
  unfold claim
  rw [hchoose]
  rfl

theorem claim_found (h : claim name t d = ((given, false), d₁)) : ∃ n, 1 ≤ n ∧ given = offer name n ∧
    d.taken.StandsFor given t ∧
      ∀ i, 1 ≤ i → i < n → ∃ held, d.taken[offer name i]? = some held ∧ held.same t = false := by
  unfold claim at h
  dsimp only at h
  rcases choose_spec t (exists_free_offer d.taken name) with ⟨hfree, -⟩ | ⟨hfree, hheld⟩
  · rw [if_pos hfree] at h
    cases h
  · rw [if_neg (by simp [hfree])] at h
    cases h
    exact ⟨_, le_choose d.taken name t 1 _, rfl, hheld, fun i hi hlt => choose_passed hi hlt⟩

theorem quiet_congr (h : d'.diagnostics = d.diagnostics) : d'.Quiet ↔ d.Quiet := by
  rw [Quiet, Quiet, h]

theorem diagnostics_enter (given : String) (t : NativeType) (d : Draft) :
    (d.enter given t).diagnostics = d.diagnostics := by
  rw [enter_eq]

theorem diagnostics_leave (t : NativeType) (before after : Draft) :
    (leave t before after).diagnostics = after.diagnostics := by
  rw [leave_eq]

theorem quiet_noteLength (s : Store) (length : Option ArrayLength) (d : Draft) :
    (noteLength s length d).Quiet ↔ d.Quiet := by
  unfold noteLength
  split
  · split
    · exact Iff.rfl
    · rw [Quiet, Diagnostics.ofKind, List.filter_append, List.append_eq_nil_iff]
      exact and_iff_left rfl
  · exact Iff.rfl

theorem quiet_note (s : Store) (j : Job) (d : Draft) : (j.note s d).Quiet ↔ d.Quiet := by
  cases j with
  | declare _ _ => exact Iff.rfl
  | use x => exact quiet_noteLength s (x.length? s) d

theorem claim_quiet (h : claim name t d = ((given, true), d₁)) (hquiet : d₁.Quiet) :
    given = name ∧ name ∉ d.taken ∧ d₁ = d.take name t := by
  by_cases hfree : name ∈ d.taken
  · unfold claim at h
    dsimp only at h
    rcases choose_spec t (exists_free_offer d.taken name) with ⟨hchosen, hgiven⟩ | ⟨hchosen, -⟩
    · rw [if_pos hchosen] at h
      cases h
      have hlater : 1 < (choose d.taken name t 1 (d.taken.size + 1)).1 := by
        refine Nat.lt_of_le_of_ne (le_choose ..) fun heq => ?_
        rw [← heq] at hgiven
        exact hgiven hfree
      unfold Quiet Diagnostics.ofKind at hquiet
      dsimp only at hquiet
      rw [if_pos hlater, List.filter_append, List.append_eq_nil_iff] at hquiet
      cases hquiet.2
    · rw [if_neg (by simp [hchosen])] at h
      cases h
  · cases h.symm.trans (claim_of_free hfree)
    exact ⟨rfl, hfree, rfl⟩

end Draft

inductive PlainRuns (o : EmitOptions) (s : Store) : Draft → List Job → List Marshalled → Draft → Prop where
  | nil (d : Draft) : PlainRuns o s d [] [] d
  | leaf {d d' : Draft} {j : Job} {js : List Job} {u : Marshalled} {us : List Marshalled} :
      j.plan o s = .leaf u → PlainRuns o s (j.note s d) js us d' → PlainRuns o s d (j :: js) (u :: us) d'
  | inner {d d₁ d' : Draft} {j : Job} {js : List Job} {x : Site} {wrap : Marshalled → Marshalled} {u : Marshalled}
      {us : List Marshalled} : j.plan o s = .inner x wrap → PlainRuns o s (j.note s d) [.use x] [u] d₁ →
      PlainRuns o s d₁ js us d' → PlainRuns o s d (j :: js) (wrap u :: us) d'
  | held {d d' : Draft} {j : Job} {js : List Job} {name : String} {t held : NativeType} {us : List Marshalled} :
      j.plan o s = .body name t → d.taken[name]? = some held → held.Twins t → PlainRuns o s d js us d' →
      PlainRuns o s d (j :: js) (.plain (.named name) :: us) d'
  | fresh {d d₂ d' : Draft} {j : Job} {js : List Job} {name : String} {t : NativeType} {vs us : List Marshalled} :
      j.plan o s = .body name t → name ∉ d.taken →
      PlainRuns o s ((d.take name t).enter name t) ((bodySites name t).map .use) vs d₂ →
      PlainRuns o s ((Draft.leave t (d.take name t) d₂).declare (bodyDecl o name t vs)) js us d' →
      PlainRuns o s d (j :: js) (.plain (.named name) :: us) d'

inductive Job.Asks (o : EmitOptions) (s : Store) (name : String) (t : NativeType) : Job → Prop where
  | body {j : Job} : j.plan o s = .body name t → Job.Asks o s name t j
  | inner {j : Job} {x : Site} {wrap : Marshalled → Marshalled} : j.plan o s = .inner x wrap →
      Job.Asks o s name t (.use x) → Job.Asks o s name t j
  | member {j : Job} {x : Site} {given : String} {body : NativeType} : j.plan o s = .body given body →
      x ∈ bodySites given body → Job.Asks o s name t (.use x) → Job.Asks o s name t j

namespace PlainRuns

theorem runs (h : PlainRuns o s d js us d') : Runs o s d js us d' := by
  induction h with
  | nil d => exact .nil d
  | leaf hplan _ ih => exact .leaf hplan ih
  | inner hplan _ _ ihx ih => exact .inner hplan ihx ih
  | held hplan hheld htwins _ ih => exact .held hplan (Draft.claim_of_standsFor ⟨_, hheld, htwins.same⟩) ih
  | fresh hplan hfree _ _ ihbody ih => exact .fresh hplan (Draft.claim_of_free hfree) ihbody ih

theorem append (h : PlainRuns o s d js us d₁) (h' : PlainRuns o s d₁ ks vs d') :
    PlainRuns o s d (js ++ ks) (us ++ vs) d' := by
  induction h with
  | nil d => exact h'
  | leaf hplan _ ih => exact .leaf hplan (ih h')
  | inner hplan hx _ _ ih => exact .inner hplan hx (ih h')
  | held hplan hheld htwins _ ih => exact .held hplan hheld htwins (ih h')
  | fresh hplan hfree hbody _ _ ih => exact .fresh hplan hfree hbody (ih h')

theorem quiet (h : PlainRuns o s d js us d') (hd : d.Quiet) : d'.Quiet := by
  induction h with
  | nil d => exact hd
  | leaf _ _ ih => exact ih ((Draft.quiet_note ..).mpr hd)
  | inner _ _ _ ihx ih => exact ih (ihx ((Draft.quiet_note ..).mpr hd))
  | held _ _ _ _ ih => exact ih hd
  | fresh _ _ _ _ ihbody ih =>
    exact ih ((Draft.quiet_congr (Draft.diagnostics_leave ..)).mpr
      (ihbody ((Draft.quiet_congr (Draft.diagnostics_enter ..)).mpr hd)))

end PlainRuns

namespace Runs

theorem quiet (h : Runs o s d js us d') (hd' : d'.Quiet) : d.Quiet := by
  induction h with
  | nil d => exact hd'
  | leaf _ _ ih => exact (Draft.quiet_note ..).mp (ih hd')
  | inner _ _ _ ihx ih => exact (Draft.quiet_note ..).mp (ihx (ih hd'))
  | held _ _ _ ih => exact ih hd'
  | @fresh d d₁ d₂ d' j js name given t vs us _ hclaim _ _ ihbody ih =>
    have hd₂ : d₂.Quiet := (Draft.quiet_congr (Draft.diagnostics_leave t d₁ d₂)).mp (ih hd')
    have hd₁ : d₁.Quiet := (Draft.quiet_congr (Draft.diagnostics_enter given t d₁)).mp (ihbody hd₂)
    obtain ⟨-, -, rfl⟩ := Draft.claim_quiet hclaim hd₁
    exact hd₁

theorem plain {final : Taken} (h : Runs o s d js us d') (hquiet : d'.Quiet) (hfinal : d'.taken.Within final)
    (hmeets : ∀ j ∈ js, s.Meets j) (hbodies : ∀ (name : String) t, final[name]? = some t → t ∈ s.bodies)
    (htwins : ∀ x ∈ s.bodies, ∀ y ∈ s.bodies, x.same y = true → x.Twins y)
    (hasked : ∀ j ∈ js, ∀ name t, j.Asks o s name t → ∀ n, 1 < n → final.StandsFor (Draft.offer name n) t →
      final.StandsFor name t) : PlainRuns o s d js us d' := by
  -- Along the run. That nothing is reported in the end means that nothing was renamed on the way, and names that are
  -- taken stay taken.
  induction h with
  | nil d => exact .nil d
  | leaf hplan _ ih =>
    rw [List.forall_mem_cons] at hmeets hasked
    exact .leaf hplan (ih hquiet hfinal hmeets.2 hasked.2)
  | inner hplan _ hrest ihx ih =>
    rw [List.forall_mem_cons] at hmeets hasked
    have hplain := ih hquiet hfinal hmeets.2 hasked.2
    refine .inner hplan (ihx (hrest.quiet hquiet) (hrest.grows.1.trans hfinal) ?_ ?_) hplain
    · exact List.forall_mem_singleton.mpr (hmeets.1.inner hplan)
    · exact List.forall_mem_singleton.mpr fun name t hasks => hasked.1 name t (.inner hplan hasks)
  | @held d d' j js name given t us hplan hclaim hrest ih =>
    rw [List.forall_mem_cons] at hmeets hasked
    have hplain := ih hquiet hfinal hmeets.2 hasked.2
    have hwithin := hrest.grows.1.trans hfinal
    obtain ⟨n, hn, rfl, ⟨held, hheld, hsame⟩, hpassed⟩ := Draft.claim_found hclaim
    have htwins := htwins held (hbodies _ _ (hwithin _ _ hheld)) t (hmeets.1.body hplan) hsame
    rcases Nat.eq_or_lt_of_le hn with rfl | hlater
    · exact .held hplan hheld htwins hplain
    · obtain ⟨other, hother, hdiffers⟩ := hpassed 1 (Nat.le_refl 1) hlater
      obtain ⟨held', hheld', hsame'⟩ :=
        hasked.1 name t (.body hplan) n hlater ⟨held, hwithin _ _ hheld, hsame⟩
      obtain rfl := Option.some.inj (hheld'.symm.trans (hwithin _ _ hother))
      rw [hdiffers] at hsame'
      cases hsame'
  | @fresh d d₁ d₂ d' j js name given t vs us hplan hclaim hbody hrest ihbody ih =>
    rw [List.forall_mem_cons] at hmeets hasked
    have hd₂ : d₂.Quiet := (Draft.quiet_congr (Draft.diagnostics_leave t d₁ d₂)).mp (hrest.quiet hquiet)
    have hd₁ : d₁.Quiet := (Draft.quiet_congr (Draft.diagnostics_enter given t d₁)).mp (hbody.quiet hd₂)
    obtain ⟨rfl, hfree, rfl⟩ := Draft.claim_quiet hclaim hd₁
    have hwithin : d₂.taken.Within final := by
      have hgrows := hrest.grows
      rw [Draft.taken_declare_leave] at hgrows
      exact hgrows.1.trans hfinal
    refine .fresh hplan hfree (ihbody hd₂ hwithin ?_ ?_) (ih hquiet hfinal hmeets.2 hasked.2)
    · exact fun k hk => Store.meets_of_mem_bodySites (hmeets.1.body hplan) hk
    · intro k hk name t hasks
      obtain ⟨x, hx, rfl⟩ := List.mem_map.mp hk
      exact hasked.1 name t (.member hplan hx hasks)

end Runs

end HeaderBinding
