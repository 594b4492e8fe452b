import HeaderBinding.Graph.Search
import HeaderBinding.Proofs.Graph.Chain
import Mathlib.Logic.Relation

namespace HeaderBinding

variable {s : Store}

namespace NativeType

variable {seen : Seen} {r : Reference} {k : Key} {rest : List NativeType} {t : NativeType}

theorem reachFrom_nil : reachFrom s seen [] = ([], seen) := by
  rw [reachFrom]

theorem reachFrom_unlinked (htarget : ∀ k, r.target ≠ some (.declaration k)) :
    reachFrom s seen (.named r :: rest) = reachFrom s seen rest := by
  rw [reachFrom]
  split
  · next k hk => exact absurd hk (htarget k)
  · rfl

theorem reachFrom_again (htarget : r.target = some (.declaration k)) (hseen : seen.has k = true) :
    reachFrom s seen (.named r :: rest) = reachFrom s seen rest := by
  rw [reachFrom, htarget]
  dsimp only
  rw [if_pos hseen]

theorem reachFrom_enter (htarget : r.target = some (.declaration k)) (hseen : seen.has k = false) :
    let onward := reachFrom s (seen.add k) (s.rootsOf k ++ rest)
    reachFrom s seen (.named r :: rest) = (k :: onward.1, onward.2) := by
  intro onward
  rw [reachFrom, htarget]
  dsimp only
  rw [if_neg (by simp [hseen])]
  unfold onward Store.rootsOf
  split
  · next hk =>
    simp [hk]
  · next hk =>
    simp [hk]

theorem reachFrom_inner (ht : t.reference? = none) :
    reachFrom s seen (t :: rest) = reachFrom s seen (t.children ++ rest) := by
  cases t with
  | named r => cases ht
  | _ =>
    rw [reachFrom]
    intro r hr
    cases hr

@[elab_as_elim]
theorem reachFrom_induction {motive : Seen → List NativeType → Prop} (nil : ∀ seen, motive seen [])
    (unlinked : ∀ seen r rest, (∀ k, r.target ≠ some (.declaration k)) → motive seen rest →
      motive seen (.named r :: rest))
    (again : ∀ seen r rest k, r.target = some (.declaration k) → seen.has k = true → motive seen rest →
      motive seen (.named r :: rest))
    (enter : ∀ seen r rest k, r.target = some (.declaration k) → seen.has k = false →
      motive (seen.add k) (s.rootsOf k ++ rest) → motive seen (.named r :: rest))
    (inner : ∀ seen t rest, t.reference? = none → motive seen (t.children ++ rest) → motive seen (t :: rest))
    (seen : Seen) (pending : List NativeType) : motive seen pending := by
  induction seen, pending using reachFrom.induct s with
  | case1 seen => exact nil seen
  | case2 seen r rest k htarget hseen ih => exact again seen r rest k htarget hseen ih
  | case3 seen r rest k htarget hseen n hk _ _ _ ih =>
    refine enter seen r rest k htarget (by simpa using hseen) ?_
    rwa [Store.rootsOf, hk]
  | case4 seen r rest k htarget hseen hk _ _ _ ih =>
    refine enter seen r rest k htarget (by simpa using hseen) ?_
    rwa [Store.rootsOf, hk]
  | case5 seen r rest htarget ih => exact unlinked seen r rest htarget ih
  | case6 seen t rest ht ih =>
    refine inner seen t rest ?_ ih
    cases t with
    | named r => exact absurd rfl (ht r)
    | _ => rfl

end NativeType

namespace Search

variable {seen : Seen} {t : NativeType} {rest : List NativeType} {found : List Key} {x : Search}
  {result result' : List Key × Seen}

theorem turn_pending (s : Store) (t : NativeType) (rest : List NativeType) (seen : Seen) (found : List Key) :
    turn s ⟨(t :: rest).reverse, seen, found⟩ = .inr (take s t ⟨rest.reverse, seen, found⟩) := by
  rw [turn, List.reverse_cons, List.getLast?_concat, List.dropLast_concat]

theorem push_pending (ts : List NativeType) :
    push ts ⟨rest.reverse, seen, found⟩ = ⟨(ts ++ rest).reverse, seen, found⟩ := by
  rw [push, List.reverse_append]

theorem finishes_reachFrom (s : Store) (seen : Seen) (pending : List NativeType) (found : List Key) :
    Finishes s ⟨pending.reverse, seen, found⟩
      (found ++ (NativeType.reachFrom s seen pending).1, (NativeType.reachFrom s seen pending).2) := by
  induction seen, pending using NativeType.reachFrom_induction (s := s) generalizing found with
  | nil seen =>
    refine .now ?_
    rw [NativeType.reachFrom_nil, List.append_nil]
    rfl
  | unlinked seen r rest htarget ih =>
    rw [NativeType.reachFrom_unlinked htarget]
    refine .later (turn_pending ..) ?_
    dsimp only [take]
    split
    · next k hk => exact absurd hk (htarget k)
    · exact ih found
  | again seen r rest k htarget hseen ih =>
    rw [NativeType.reachFrom_again htarget hseen]
    refine .later (turn_pending ..) ?_
    simp only [take, htarget]
    rw [follow, if_pos hseen]
    exact ih found
  | enter seen r rest k htarget hseen ih =>
    rw [NativeType.reachFrom_enter htarget hseen]
    refine .later (turn_pending ..) ?_
    simp only [take, htarget]
    rw [follow, if_neg (by simp [hseen]), push_pending]
    have hrest := ih (found ++ [k])
    rwa [List.append_assoc] at hrest
  | inner seen t rest ht ih =>
    rw [NativeType.reachFrom_inner ht]
    refine .later (turn_pending ..) ?_
    cases t with
    | named r => cases ht
    | _ =>
      rw [take, push_pending]
      · exact ih found
      · intro r hr
        cases hr

theorem Finishes.eq (h : Finishes s x result) (h' : Finishes s x result') : result = result' := by
  induction h with
  | now hturn =>
    cases h' with
    | now hturn' => exact Sum.inl.inj (hturn.symm.trans hturn')
    | later hturn' _ => cases hturn.symm.trans hturn'
  | later hturn _ ih =>
    cases h' with
    | now hturn' => cases hturn.symm.trans hturn'
    | later hturn' hrest =>
      cases hturn.symm.trans hturn'
      exact ih hrest

theorem finishes_start_iff : Finishes s (.start seen t) result ↔ result = t.reachable s seen := by
  have hends : Finishes s (.start seen t) (t.reachable s seen) := finishes_reachFrom s seen [t] []
  exact ⟨fun h => h.eq hends, fun h => h ▸ hends⟩

end Search

inductive Steps (s : Store) (avoid : List Key) : NativeType → NativeType → Prop where
  | child {t c : NativeType} : c ∈ t.children → Steps s avoid t c
  | link {r : Reference} {k : Key} {c : NativeType} : r.target = some (.declaration k) → k ∉ avoid →
      c ∈ s.rootsOf k → Steps s avoid (.named r) c

def reachedKeys (s : Store) (avoid : List Key) (t : NativeType) : Set Key :=
  {k | k ∉ avoid ∧ ∃ r : Reference, Relation.ReflTransGen (Steps s avoid) t (.named r) ∧
    r.target = some (.declaration k)}

section

variable {avoid avoid' : List Key} {t c : NativeType} {r : Reference} {k l : Key}

theorem Steps.of_subset (havoid : avoid ⊆ avoid') (h : Steps s avoid' t c) : Steps s avoid t c := by
  cases h with
  | child hc => exact .child hc
  | link htarget hk hc => exact .link htarget (fun hmem => hk (havoid hmem)) hc

theorem reachedKeys_of_subset (havoid : avoid ⊆ avoid') (h : k ∈ reachedKeys s avoid' t) :
    k ∈ reachedKeys s avoid t := by
  obtain ⟨hk, r, hway, htarget⟩ := h
  have hway' := Relation.ReflTransGen.mono (fun _ _ => Steps.of_subset havoid) _ _ hway
  exact ⟨fun hmem => hk (havoid hmem), r, hway', htarget⟩

theorem mem_reachedKeys_named (htarget : r.target = some (.declaration k)) (hk : k ∉ avoid) :
    k ∈ reachedKeys s avoid (.named r) :=
  ⟨hk, r, .refl, htarget⟩

theorem reachedKeys_of_step (hstep : Steps s avoid t c) (h : k ∈ reachedKeys s avoid c) :
    k ∈ reachedKeys s avoid t := by
  obtain ⟨hk, r, hway, htarget⟩ := h
  exact ⟨hk, r, .head hstep hway, htarget⟩

end

inductive DepthFirst (s : Store) : List Key → List NativeType → List Key → Prop where
  | nil (visited : List Key) : DepthFirst s visited [] []
  | unlinked {visited ls : List Key} {r : Reference} {ts : List NativeType} :
      (∀ k, r.target ≠ some (.declaration k)) → DepthFirst s visited ts ls → DepthFirst s visited (.named r :: ts) ls
  | again {visited ls : List Key} {r : Reference} {k : Key} {ts : List NativeType} :
      r.target = some (.declaration k) → k ∈ visited → DepthFirst s visited ts ls →
      DepthFirst s visited (.named r :: ts) ls
  | enter {visited ks ls : List Key} {r : Reference} {k : Key} {ts : List NativeType} :
      r.target = some (.declaration k) → k ∉ visited → DepthFirst s (visited ++ [k]) (s.rootsOf k) ks →
      DepthFirst s (visited ++ k :: ks) ts ls → DepthFirst s visited (.named r :: ts) (k :: (ks ++ ls))
  | inner {visited ks ls : List Key} {t : NativeType} {ts : List NativeType} :
      t.reference? = none → DepthFirst s visited t.children ks → DepthFirst s (visited ++ ks) ts ls →
      DepthFirst s visited (t :: ts) (ks ++ ls)

namespace DepthFirst

variable {visited ks ls : List Key} {ts us : List NativeType} {t : NativeType} {k : Key}

theorem exists_of_append (h : DepthFirst s visited (ts ++ us) ks) : ∃ ks₁ ks₂, ks = ks₁ ++ ks₂ ∧
    DepthFirst s visited ts ks₁ ∧ DepthFirst s (visited ++ ks₁) us ks₂ := by
  induction ts generalizing visited ks with
  | nil => exact ⟨[], ks, rfl, .nil visited, by rwa [List.append_nil]⟩
  | cons t ts ih =>
    cases h with
    | unlinked htarget hrest =>
      obtain ⟨ks₁, ks₂, rfl, hfirst, hsecond⟩ := ih hrest
      exact ⟨ks₁, ks₂, rfl, .unlinked htarget hfirst, hsecond⟩
    | again htarget hk hrest =>
      obtain ⟨ks₁, ks₂, rfl, hfirst, hsecond⟩ := ih hrest
      exact ⟨ks₁, ks₂, rfl, .again htarget hk hfirst, hsecond⟩
    | @enter _ below _ r k _ htarget hk hbelow hrest =>
      obtain ⟨ks₁, ks₂, rfl, hfirst, hsecond⟩ := ih hrest
      refine ⟨k :: (below ++ ks₁), ks₂, by simp, .enter htarget hk hbelow hfirst, ?_⟩
      simpa using hsecond
    | @inner _ below _ _ _ ht hbelow hrest =>
      obtain ⟨ks₁, ks₂, rfl, hfirst, hsecond⟩ := ih hrest
      refine ⟨below ++ ks₁, ks₂, by simp, .inner ht hbelow hfirst, ?_⟩
      simpa using hsecond

theorem nodup (h : DepthFirst s visited ts ks) : ks.Nodup ∧ ∀ k ∈ ks, k ∉ visited := by
  induction h with
  | nil visited => exact ⟨List.nodup_nil, nofun⟩
  | unlinked _ _ ih => exact ih
  | again _ _ _ ih => exact ih
  | enter _ hk _ _ ihbelow ih =>
    simp only [List.mem_append, List.mem_cons, not_or] at ihbelow ih
    rw [List.nodup_cons, List.nodup_append]
    grind
  | inner _ _ _ ihbelow ih =>
    simp only [List.mem_append, not_or] at ih
    rw [List.nodup_append]
    grind

theorem reached (h : DepthFirst s visited ts ks) (hk : k ∈ ks) : ∃ t ∈ ts, k ∈ reachedKeys s visited t := by
  induction h with
  | nil visited => cases hk
  | unlinked _ _ ih =>
    obtain ⟨t, ht, hreached⟩ := ih hk
    exact ⟨t, List.mem_cons_of_mem _ ht, hreached⟩
  | again _ _ _ ih =>
    obtain ⟨t, ht, hreached⟩ := ih hk
    exact ⟨t, List.mem_cons_of_mem _ ht, hreached⟩
  | @enter visited below _ r l ts htarget hl _ _ ihbelow ih =>
    rcases List.mem_cons.mp hk with rfl | hk
    · exact ⟨.named r, List.mem_cons_self .., mem_reachedKeys_named htarget hl⟩
    · rcases List.mem_append.mp hk with hk | hk
      · obtain ⟨c, hc, hreached⟩ := ihbelow hk
        exact ⟨.named r, List.mem_cons_self .., reachedKeys_of_step (.link htarget hl hc)
          (reachedKeys_of_subset (List.subset_append_left visited [l]) hreached)⟩
      · obtain ⟨t, ht, hreached⟩ := ih hk
        exact ⟨t, List.mem_cons_of_mem _ ht,
          reachedKeys_of_subset (List.subset_append_left visited (l :: below)) hreached⟩
  | @inner visited below _ t ts _ _ _ ihbelow ih =>
    rcases List.mem_append.mp hk with hk | hk
    · obtain ⟨c, hc, hreached⟩ := ihbelow hk
      exact ⟨t, List.mem_cons_self .., reachedKeys_of_step (.child hc) hreached⟩
    · obtain ⟨t, ht, hreached⟩ := ih hk
      exact ⟨t, List.mem_cons_of_mem _ ht, reachedKeys_of_subset (List.subset_append_left visited below) hreached⟩

end DepthFirst

def Covered (keys : List Key) (t : NativeType) : Prop :=
  ∀ r ∈ t.references, ∀ k, r.target = some (.declaration k) → k ∈ keys

section

variable {keys keys' : List Key} {t c : NativeType} {r : Reference}

theorem Covered.of_subset (h : Covered keys t) (hsub : keys ⊆ keys') : Covered keys' t :=
  fun r hr k hk => hsub (h r hr k hk)

theorem covered_iff (ht : t.reference? = none) : Covered keys t ↔ ∀ c ∈ t.children, Covered keys c := by
  unfold Covered
  rw [NativeType.references_eq, ht]
  simp only [Option.toList_none, List.nil_append, List.mem_flatMap]
  grind

theorem covered_named_iff : Covered keys (.named r) ↔ ∀ k, r.target = some (.declaration k) → k ∈ keys := by
  unfold Covered
  rw [NativeType.references_eq]
  simp [NativeType.reference?, NativeType.children]

theorem Covered.child (h : Covered keys t) (hc : c ∈ t.children) : Covered keys c := by
  refine (covered_iff ?_).mp h c hc
  cases t with
  | named r => cases hc
  | _ => rfl

end

theorem DepthFirst.covers {visited ks : List Key} {ts : List NativeType} (h : DepthFirst s visited ts ks) :
    (∀ t ∈ ts, Covered (visited ++ ks) t) ∧ ∀ k ∈ ks, ∀ c ∈ s.rootsOf k, Covered (visited ++ ks) c := by
  -- What is met is covered by all that has been met by then, so each part of the walk hands on what it met.
  induction h with
  | nil visited => exact ⟨nofun, nofun⟩
  | unlinked htarget _ ih =>
    refine ⟨List.forall_mem_cons.mpr ⟨covered_named_iff.mpr fun k hk => absurd hk (htarget k), ih.1⟩, ih.2⟩
  | again htarget hk _ ih =>
    refine ⟨List.forall_mem_cons.mpr ⟨covered_named_iff.mpr fun l hl => ?_, ih.1⟩, ih.2⟩
    cases htarget.symm.trans hl
    exact List.mem_append_left _ hk
  | @enter visited below ls r k ts htarget _ _ _ ihbelow ih =>
    have hall : visited ++ [k] ++ below ⊆ visited ++ k :: (below ++ ls) := by
      intro l
      simp only [List.mem_append, List.mem_cons, List.not_mem_nil]
      grind
    have hassoc : visited ++ k :: below ++ ls = visited ++ k :: (below ++ ls) := by simp
    rw [hassoc] at ih
    refine ⟨List.forall_mem_cons.mpr ⟨covered_named_iff.mpr fun l hl => ?_, ih.1⟩, ?_⟩
    · cases htarget.symm.trans hl
      simp
    · intro l hl c hc
      rcases List.mem_cons.mp hl with rfl | hl
      · exact (ihbelow.1 c hc).of_subset hall
      · rcases List.mem_append.mp hl with hl | hl
        · exact (ihbelow.2 l hl c hc).of_subset hall
        · exact ih.2 l hl c hc
  | @inner visited below ls t ts ht _ _ ihbelow ih =>
    have hall : visited ++ below ⊆ visited ++ (below ++ ls) := by
      rw [← List.append_assoc]
      exact List.subset_append_left _ _
    rw [List.append_assoc] at ih
    refine ⟨List.forall_mem_cons.mpr ⟨(covered_iff ht).mpr fun c hc => (ihbelow.1 c hc).of_subset hall, ih.1⟩, ?_⟩
    intro l hl c hc
    rcases List.mem_append.mp hl with hl | hl
    · exact (ihbelow.2 l hl c hc).of_subset hall
    · exact ih.2 l hl c hc

theorem DepthFirst.mem_iff {visited ks : List Key} {ts : List NativeType} (h : DepthFirst s visited ts ks) {k : Key} :
    k ∈ ks ↔ ∃ t ∈ ts, k ∈ reachedKeys s visited t := by
  refine ⟨h.reached, ?_⟩
  rintro ⟨t, ht, hk, r, hway, htarget⟩
  obtain ⟨htypes, hroots⟩ := h.covers
  have hmet : ∀ {l}, l ∈ visited ++ ks → l ∉ visited → l ∈ ks := fun hl hout =>
    (List.mem_append.mp hl).resolve_left hout
  have hcovered : ∀ {u}, Relation.ReflTransGen (Steps s visited) t u → Covered (visited ++ ks) u := by
    intro u hway
    induction hway with
    | refl => exact htypes t ht
    | tail _ hstep ih =>
      cases hstep with
      | child hc => exact ih.child hc
      | link htarget hl hc => exact hroots _ (hmet (covered_named_iff.mp ih _ htarget) hl) _ hc
  exact hmet (covered_named_iff.mp (hcovered hway) k htarget) hk

theorem DepthFirst.eq {visited ks ls : List Key} {ts : List NativeType} (h : DepthFirst s visited ts ks)
    (h' : DepthFirst s visited ts ls) : ks = ls := by
  induction h generalizing ls with
  | nil visited =>
    cases h'
    rfl
  | unlinked htarget _ ih =>
    cases h' with
    | unlinked _ hrest => exact ih hrest
    | again htarget' _ _ => exact absurd htarget' (htarget _)
    | enter htarget' _ _ _ => exact absurd htarget' (htarget _)
    | inner ht _ _ => cases ht
  | again htarget hk _ ih =>
    cases h' with
    | unlinked htarget' _ => exact absurd htarget (htarget' _)
    | again _ _ hrest => exact ih hrest
    | enter htarget' hk' _ _ =>
      cases htarget.symm.trans htarget'
      exact absurd hk hk'
    | inner ht _ _ => cases ht
  | enter htarget hk _ _ ihbelow ih =>
    cases h' with
    | unlinked htarget' _ => exact absurd htarget (htarget' _)
    | again htarget' hk' _ =>
      cases htarget.symm.trans htarget'
      exact absurd hk' hk
    | enter htarget' _ hbelow hrest =>
      cases htarget.symm.trans htarget'
      obtain rfl := ihbelow hbelow
      obtain rfl := ih hrest
      rfl
    | inner ht _ _ => cases ht
  | inner ht _ _ ihbelow ih =>
    cases h' with
    | unlinked _ _ => cases ht
    | again _ _ _ => cases ht
    | enter _ _ _ _ => cases ht
    | inner _ hbelow hrest =>
      obtain rfl := ihbelow hbelow
      obtain rfl := ih hrest
      rfl

namespace Seen

def enterAll (seen : Seen) (keys : List Key) : Seen :=
  keys.foldl add seen

theorem enterAll_concat (seen : Seen) (keys : List Key) (k : Key) :
    seen.enterAll (keys ++ [k]) = (seen.enterAll keys).add k := by
  rw [enterAll, List.foldl_append]
  rfl

theorem has_enterAll {seen : Seen} {keys : List Key} {k : Key} : (seen.enterAll keys).has k = true ↔
    seen.has k = true ∨ ∃ l ∈ keys, l.digest = k.digest := by
  induction keys generalizing seen with
  | nil => simp [enterAll]
  | cons l keys ih =>
    have hrest : seen.enterAll (l :: keys) = (seen.add l).enterAll keys := rfl
    rw [hrest, ih, has_add]
    simp only [List.mem_cons, exists_eq_or_imp, or_assoc, or_left_comm]

end Seen

namespace NativeType

theorem snd_reachFrom (s : Store) (seen : Seen) (pending : List NativeType) :
    (reachFrom s seen pending).2 = seen.enterAll (reachFrom s seen pending).1 := by
  induction seen, pending using reachFrom_induction (s := s) with
  | nil seen =>
    rw [reachFrom_nil]
    rfl
  | unlinked seen r rest htarget ih => rwa [reachFrom_unlinked htarget]
  | again seen r rest k htarget hseen ih => rwa [reachFrom_again htarget hseen]
  | enter seen r rest k htarget hseen ih =>
    rw [reachFrom_enter htarget hseen]
    exact ih
  | inner seen t rest ht ih => rwa [reachFrom_inner ht]

theorem depthFirst_reachFrom {keys : Set Key} (hapart : keys.InjOn Key.digest) (seen : Seen) (pending : List NativeType)
    {visited : List Key} (hseen : seen = Seen.nothing.enterAll visited) (hvisited : ∀ k ∈ visited, k ∈ keys)
    (hreached : ∀ t ∈ pending, ∀ k ∈ reachedKeys s visited t, k ∈ keys) :
    DepthFirst s visited pending (reachFrom s seen pending).1 := by
  induction seen, pending using reachFrom_induction (s := s) generalizing visited with
  | nil seen =>
    rw [reachFrom_nil]
    exact .nil visited
  | unlinked seen r rest htarget ih =>
    rw [reachFrom_unlinked htarget]
    exact .unlinked htarget (ih hseen hvisited (List.forall_mem_cons.mp hreached).2)
  | again seen r rest k htarget hhas ih =>
    obtain ⟨hr, hrest⟩ := List.forall_mem_cons.mp hreached
    rw [reachFrom_again htarget hhas]
    refine .again htarget ?_ (ih hseen hvisited hrest)
    rw [hseen, Seen.has_enterAll] at hhas
    obtain hnothing | ⟨l, hl, hdigest⟩ := hhas
    · cases hnothing
    -- A digest that has been seen is that of a key visited before; it is this key, as digests tell them apart.
    · by_contra hk
      have hlk : l = k := hapart (hvisited l hl) (hr k (mem_reachedKeys_named htarget hk)) hdigest
      exact hk (hlk ▸ hl)
  | enter seen r rest k htarget hhas ih =>
    obtain ⟨hr, hrest⟩ := List.forall_mem_cons.mp hreached
    have hk : k ∉ visited := by
      intro hmem
      have hhas' : seen.has k = true := hseen ▸ Seen.has_enterAll.mpr (.inr ⟨k, hmem, rfl⟩)
      cases hhas.symm.trans hhas'
    have hgrows : visited ⊆ visited ++ [k] := List.subset_append_left visited [k]
    have honward : DepthFirst s (visited ++ [k]) (s.rootsOf k ++ rest)
        (reachFrom s (seen.add k) (s.rootsOf k ++ rest)).1 := by
      refine ih ?_ ?_ ?_
      · rw [Seen.enterAll_concat, hseen]
      · rw [List.forall_mem_append]
        exact ⟨hvisited, List.forall_mem_singleton.mpr (hr k (mem_reachedKeys_named htarget hk))⟩
      · rw [List.forall_mem_append]
        exact ⟨fun c hc l hl => hr l (reachedKeys_of_step (.link htarget hk hc) (reachedKeys_of_subset hgrows hl)),
          fun t ht l hl => hrest t ht l (reachedKeys_of_subset hgrows hl)⟩
    obtain ⟨below, beside, heq, hbelow, hbeside⟩ := honward.exists_of_append
    rw [reachFrom_enter htarget hhas]
    dsimp only
    rw [heq]
    exact .enter htarget hk hbelow (by simpa using hbeside)
  | inner seen t rest ht ih =>
    obtain ⟨hr, hrest⟩ := List.forall_mem_cons.mp hreached
    have honward : DepthFirst s visited (t.children ++ rest) (reachFrom s seen (t.children ++ rest)).1 := by
      refine ih hseen hvisited ?_
      rw [List.forall_mem_append]
      exact ⟨fun c hc l hl => hr l (reachedKeys_of_step (.child hc) hl), hrest⟩
    obtain ⟨below, beside, heq, hbelow, hbeside⟩ := honward.exists_of_append
    rw [reachFrom_inner ht, heq]
    exact .inner ht hbelow hbeside

theorem reachable_outcome (entered : List Key) (t : NativeType)
    (hapart : Set.InjOn Key.digest ({k | k ∈ entered} ∪ reachedKeys s entered t)) :
    let seen := Seen.nothing.enterAll entered
    let out := t.reachable s seen
    (∀ result, Search.Finishes s (.start seen t) result ↔ result = out) ∧ out.1.Nodup ∧
      (∀ k, k ∈ out.1 ↔ k ∈ reachedKeys s entered t) ∧ (∀ ks, DepthFirst s entered [t] ks ↔ ks = out.1) ∧
      out.2 = seen.enterAll out.1 := by
  intro seen out
  have hwalk : DepthFirst s entered [t] out.1 := by
    refine depthFirst_reachFrom hapart seen [t] rfl (fun k hk => .inl hk) ?_
    exact List.forall_mem_singleton.mpr fun k hk => .inr hk
  refine ⟨fun result => Search.finishes_start_iff, hwalk.nodup.1, fun k => ?_, fun ks => ?_, snd_reachFrom s seen [t]⟩
  · rw [hwalk.mem_iff]
    simp
  · exact ⟨fun h => h.eq hwalk, fun h => h ▸ hwalk⟩

end NativeType

theorem rootsOf_ring (name : String) : ring.rootsOf (.synonym name) =
    ((ring.typedefs.toList.find? (Declaration.name · == name)).map Typedef.target).toList := by
  have hindexed : ring.typedefs.Indexed := Table.indexed_indexOf _ (by decide)
  unfold Store.rootsOf Store.node?
  dsimp only [Key.synonym]
  rw [hindexed.get?_eq]
  cases ring.typedefs.toList.find? (Declaration.name · == name) <;> rfl

def ringUser : NativeType :=
  .record .struct ⟨"User", [⟨"a", .pointer (.named (typedefNamed "A" .empty))⟩,
    ⟨"word", .named (typedefNamed "WORD" .empty)⟩,
    ⟨"gone", .named ⟨"Gone", some (.declaration (.definedType "Gone")), .empty⟩⟩,
    ⟨"b", .named (typedefNamed "B" .empty)⟩]⟩

theorem depthFirst_ringUser :
    DepthFirst ring [.synonym "WORD"] [ringUser] [.synonym "A", .synonym "B", .definedType "Gone"] := by
  have hback : DepthFirst ring [.synonym "WORD", .synonym "A", .synonym "B"] (ring.rootsOf (.synonym "B")) [] := by
    rw [rootsOf_ring]
    exact .again rfl (by simp) (.nil _)
  have honward : DepthFirst ring [.synonym "WORD", .synonym "A"] (ring.rootsOf (.synonym "A")) [.synonym "B"] := by
    have hnew : Key.synonym "B" ∉ [Key.synonym "WORD", .synonym "A"] := by decide
    rw [rootsOf_ring]
    exact .enter rfl hnew hback (.nil _)
  have hpointer : DepthFirst ring [.synonym "WORD"] [.named (typedefNamed "A" .empty)]
      [.synonym "A", .synonym "B"] := by
    have hnew : Key.synonym "A" ∉ [Key.synonym "WORD"] := by decide
    exact .enter rfl hnew honward (.nil _)
  have hmissing : DepthFirst ring [.synonym "WORD", .synonym "A", .synonym "B", .definedType "Gone"]
      (ring.rootsOf (.definedType "Gone")) [] := by
    have hgone : ring.rootsOf (.definedType "Gone") = [] := by cbv
    rw [hgone]
    exact .nil _
  have hnew : Key.definedType "Gone" ∉ [Key.synonym "WORD", .synonym "A", .synonym "B"] := by decide
  have hothers : DepthFirst ring [.synonym "WORD", .synonym "A", .synonym "B"]
      [.named (typedefNamed "WORD" .empty), .named ⟨"Gone", some (.declaration (.definedType "Gone")), .empty⟩,
        .named (typedefNamed "B" .empty)] [.definedType "Gone"] :=
    .again rfl (by simp) (.enter rfl hnew hmissing (.again rfl (by simp) (.nil _)))
  have hmembers := DepthFirst.inner (t := .pointer (.named (typedefNamed "A" .empty))) rfl hpointer hothers
  exact DepthFirst.inner (t := ringUser) rfl hmembers (.nil _)

theorem NativeType.reachable_outcome_ring :
    (ringUser.reachable ring (Seen.nothing.enterAll [.synonym "WORD"])).1 =
      [.synonym "A", .synonym "B", .definedType "Gone"] := by
  let met : List Key := [.synonym "WORD", .synonym "A", .synonym "B", .definedType "Gone"]
  have hdigests : (met.map Key.digest).Nodup := by decide +kernel
  have hmet : ∀ k ∈ {k | k ∈ [Key.synonym "WORD"]} ∪ reachedKeys ring [.synonym "WORD"] ringUser, k ∈ met := by
    rintro k (hk | hk)
    · exact List.mem_of_mem_head? (Option.mem_some_iff.mpr (List.mem_singleton.mp hk).symm)
    · exact List.mem_cons_of_mem _ (depthFirst_ringUser.mem_iff.mpr ⟨ringUser, List.mem_singleton_self _, hk⟩)
  have hapart := fun k hk l hl => List.inj_on_of_nodup_map hdigests (hmet k hk) (hmet l hl)
  exact ((reachable_outcome (s := ring) _ ringUser hapart).2.2.2.1 _).mp depthFirst_ringUser |>.symm

end HeaderBinding
