import HeaderBinding.Graph.Symbol

namespace HeaderBinding

variable {s : Store}

inductive SymbolTree where
  | part (label : String) (children : List SymbolTree)
  | name (r : Reference)
  | body (r : Reference) (label : String) (children : List SymbolTree)

def Reference.declaration? (r : Reference) : Option Key :=
  match r.target with
  | some (.declaration k) => some k
  | _ => none

theorem Reference.declaration?_eq_some {r : Reference} {k : Key} :
    r.declaration? = some k ↔ r.target = some (.declaration k) := by
  unfold declaration?
  split
  · next l hl =>
    rw [hl, Option.some_inj, Option.some_inj, Target.declaration.injEq]
  · next hnone =>
    exact iff_of_false (Option.some_ne_none k).symm (hnone k)

structure Mention where
  key : Key
  isBody : Bool

def Reference.mentions (r : Reference) (isBody : Bool) : List Mention :=
  r.declaration?.toList.map (⟨·, isBody⟩)

namespace SymbolTree

mutual
def text : SymbolTree → String
  | part label children => label ++ textAll children
  | name r => r.qualifier ++ r.name
  | body r label children => r.qualifier ++ label ++ textAll children
termination_by structural x => x

def textAll : List SymbolTree → String
  | [] => ""
  | x :: xs => "(" ++ x.text ++ ")" ++ textAll xs
termination_by structural xs => xs
end

mutual
def mentions : SymbolTree → List Mention
  | part _ children => mentionsAll children
  | name r => r.mentions false
  | body r _ children => r.mentions true ++ mentionsAll children
termination_by structural x => x

def mentionsAll : List SymbolTree → List Mention
  | [] => []
  | x :: xs => x.mentions ++ mentionsAll xs
termination_by structural xs => xs
end

end SymbolTree

def MentionedOnceInFull (ms : List Mention) : Prop :=
  ms.Pairwise fun m n => m.key = n.key → n.isBody = false

open SymbolTree (text textAll mentions mentionsAll)

mutual
inductive Draws (s : Store) : Seen → NativeType → SymbolTree → Seen → Prop where
  | unlinked {seen : Seen} {r : Reference} : r.declaration? = none → Draws s seen (.named r) (.name r) seen
  | again {seen : Seen} {r : Reference} {k : Key} : r.declaration? = some k → seen.has k = true →
      Draws s seen (.named r) (.name r) seen
  | missing {seen : Seen} {r : Reference} {k : Key} : r.declaration? = some k → seen.has k = false →
      s.node? k = none → Draws s seen (.named r) (.name r) (seen.add k)
  | body {seen seen' : Seen} {r : Reference} {k : Key} {n : Node} {xs : List SymbolTree} :
      r.declaration? = some k → seen.has k = false → s.node? k = some n →
      DrawsAll s (seen.add k) n.limbs xs seen' → Draws s seen (.named r) (.body r n.label xs) seen'
  | ownAgain {seen : Seen} {t : NativeType} {k : Key} : t.ownKey? = some k → seen.has k = true →
      Draws s seen t (.part t.label []) seen
  | own {seen seen' : Seen} {t : NativeType} {k : Key} {xs : List SymbolTree} : t.ownKey? = some k →
      seen.has k = false → DrawsAll s (seen.add k) t.limbs xs seen' → Draws s seen t (.part t.label xs) seen'
  | inner {seen seen' : Seen} {t : NativeType} {xs : List SymbolTree} : t.ownKey? = none → t.reference? = none →
      DrawsAll s seen t.limbs xs seen' → Draws s seen t (.part t.label xs) seen'

inductive DrawsAll (s : Store) : Seen → List Limb → List SymbolTree → Seen → Prop where
  | nil (seen : Seen) : DrawsAll s seen [] [] seen
  | type {seen seen₁ seen₂ : Seen} {t : NativeType} {x : SymbolTree} {ls : List Limb} {xs : List SymbolTree} :
      Draws s seen t x seen₁ → DrawsAll s seen₁ ls xs seen₂ → DrawsAll s seen (.type t :: ls) (x :: xs) seen₂
  | member {seen seen₁ seen₂ : Seen} {name : String} {t : NativeType} {x : SymbolTree} {ls : List Limb}
      {xs : List SymbolTree} : Draws s seen t x seen₁ → DrawsAll s seen₁ ls xs seen₂ →
      DrawsAll s seen (.member name t :: ls) (.part name [x] :: xs) seen₂
  | leaf {seen seen' : Seen} {label : String} {ls : List Limb} {xs : List SymbolTree} : DrawsAll s seen ls xs seen' →
      DrawsAll s seen (.leaf label :: ls) (.part label [] :: xs) seen'
end

structure Tracks (seen : Seen) (ms : List Mention) (seen' : Seen) : Prop where
  once : MentionedOnceInFull ms
  fresh : ∀ m ∈ ms, m.isBody = true → seen.has m.key = false
  entered : ∀ m ∈ ms, seen'.has m.key = true
  kept : ∀ k, seen.has k = true → seen'.has k = true

namespace Tracks

variable {seen seen₁ seen₂ seen' : Seen} {ms ns : List Mention} {k : Key}

theorem nil (seen : Seen) : Tracks seen [] seen :=
  ⟨.nil, nofun, nofun, fun _ h => h⟩

theorem again (hk : seen.has k = true) : Tracks seen [⟨k, false⟩] seen :=
  ⟨List.pairwise_singleton .., List.forall_mem_singleton.mpr nofun, List.forall_mem_singleton.mpr hk, fun _ h => h⟩

theorem first (isBody : Bool) (hk : seen.has k = false) : Tracks seen [⟨k, isBody⟩] (seen.add k) :=
  ⟨List.pairwise_singleton .., List.forall_mem_singleton.mpr fun _ => hk,
    List.forall_mem_singleton.mpr (Seen.has_add_self seen k), fun _ => Seen.has_add_of_has⟩

theorem append (h : Tracks seen ms seen₁) (h' : Tracks seen₁ ns seen₂) : Tracks seen (ms ++ ns) seen₂ where
  once := by
    refine List.pairwise_append.mpr ⟨h.once, h'.once, fun m hm n hn hkey => ?_⟩
    refine Bool.eq_false_iff.mpr fun hbody => ?_
    have hunseen := h'.fresh n hn hbody
    rw [← hkey, h.entered m hm] at hunseen
    cases hunseen
  fresh := List.forall_mem_append.mpr
    ⟨h.fresh, fun n hn hbody => Seen.has_eq_false_of_kept (h.kept n.key) (h'.fresh n hn hbody)⟩
  entered := List.forall_mem_append.mpr ⟨fun m hm => h'.kept m.key (h.entered m hm), h'.entered⟩
  kept := fun k hk => h'.kept k (h.kept k hk)

theorem silently (h : Tracks (seen.add k) ms seen') : Tracks seen ms seen' where
  once := h.once
  fresh := fun m hm hbody => Seen.has_eq_false_of_kept Seen.has_add_of_has (h.fresh m hm hbody)
  entered := h.entered
  kept := fun l hl => h.kept l (Seen.has_add_of_has hl)

end Tracks

theorem Reference.mentions_linked {r : Reference} {k : Key} (h : r.declaration? = some k) (isBody : Bool) :
    r.mentions isBody = [⟨k, isBody⟩] := by
  rw [mentions, h]
  rfl

theorem Reference.mentions_unlinked {r : Reference} (h : r.declaration? = none) (isBody : Bool) :
    r.mentions isBody = [] := by
  rw [mentions, h]
  rfl

mutual
theorem Draws.tracks {seen seen' : Seen} {t : NativeType} {x : SymbolTree} (h : Draws s seen t x seen') :
    Tracks seen x.mentions seen' := by
  cases h with
  | unlinked hr =>
    rw [mentions, Reference.mentions_unlinked hr]
    exact .nil seen
  | again hr hk =>
    rw [mentions, Reference.mentions_linked hr]
    exact .again hk
  | missing hr hk _ =>
    rw [mentions, Reference.mentions_linked hr]
    exact .first false hk
  | body hr hk _ hxs =>
    rw [mentions, Reference.mentions_linked hr]
    exact (Tracks.first true hk).append hxs.tracks
  | ownAgain _ _ => exact .nil seen
  | own _ _ hxs => exact hxs.tracks.silently
  | inner _ _ hxs => exact hxs.tracks

theorem DrawsAll.tracks {seen seen' : Seen} {ls : List Limb} {xs : List SymbolTree} (h : DrawsAll s seen ls xs seen') :
    Tracks seen (mentionsAll xs) seen' := by
  cases h with
  | nil => exact .nil seen
  | type hx hxs => exact hx.tracks.append hxs.tracks
  | member hx hxs =>
    rw [mentionsAll, mentions, mentionsAll, mentionsAll, List.append_nil]
    exact hx.tracks.append hxs.tracks
  | leaf hxs => exact hxs.tracks
end

section

open HeaderBinding.Symbol

theorem weight_rest_lt (l : Limb) (ls : List Limb) : weight (pieces ls) < weight (pieces (l :: ls)) := by
  have hpositive : 0 < weight (limb l) := by
    cases l with
    | type t => rw [weight_limb_type]; omega
    | member name t => rw [weight_limb_member]; omega
    | leaf label => rw [limb, weight, Piece.weight]; omega
  rw [weight_pieces_cons]
  omega

theorem weight_type_lt (t : NativeType) (ls : List Limb) : 3 * sizeOf t < weight (pieces (.type t :: ls)) := by
  rw [weight_pieces_cons, weight_limb_type]
  omega

theorem weight_member_lt (name : String) (t : NativeType) (ls : List Limb) :
    3 * sizeOf t < weight (pieces (.member name t :: ls)) := by
  rw [weight_pieces_cons, weight_limb_member]
  omega

mutual
theorem exists_draws (s : Store) (seen : Seen) (t : NativeType) : ∃ x seen', Draws s seen t x seen' := by
  cases hr : t.reference? with
  | some r =>
    have ht : t = .named r := by
      cases t with
      | named r' => rw [Option.some_inj.mp hr]
      | _ => cases hr
    subst ht
    cases hk : r.declaration? with
    | none => exact ⟨_, _, .unlinked hk⟩
    | some k =>
      cases hseen : seen.has k with
      | true => exact ⟨_, _, .again hk hseen⟩
      | false =>
        cases hn : s.node? k with
        | none => exact ⟨_, _, .missing hk hseen hn⟩
        | some n =>
          obtain ⟨xs, seen', hxs⟩ := exists_drawsAll s (seen.add k) n.limbs
          exact ⟨_, _, .body hk hseen hn hxs⟩
  | none =>
    cases hk : t.ownKey? with
    | none =>
      obtain ⟨xs, seen', hxs⟩ := exists_drawsAll s seen t.limbs
      exact ⟨_, _, .inner hk hr hxs⟩
    | some k =>
      cases hseen : seen.has k with
      | true => exact ⟨_, _, .ownAgain hk hseen⟩
      | false =>
        obtain ⟨xs, seen', hxs⟩ := exists_drawsAll s (seen.add k) t.limbs
        exact ⟨_, _, .own hk hseen hxs⟩
termination_by (s.unseen seen, 3 * sizeOf t)
decreasing_by
  · exact .right' _ (Nat.le_refl _) (weight_limbs_lt t)
  · exact .right' _ (s.unseen_add_le seen k) (weight_limbs_lt t)
  · exact .left _ _ (Store.unseen_add_lt hn hseen)

theorem exists_drawsAll (s : Store) (seen : Seen) (ls : List Limb) : ∃ xs seen', DrawsAll s seen ls xs seen' := by
  cases ls with
  | nil => exact ⟨_, _, .nil seen⟩
  | cons l ls =>
    cases l with
    | type t =>
      obtain ⟨x, seen₁, hx⟩ := exists_draws s seen t
      obtain ⟨xs, seen₂, hxs⟩ := exists_drawsAll s seen₁ ls
      exact ⟨_, _, .type hx hxs⟩
    | member name t =>
      obtain ⟨x, seen₁, hx⟩ := exists_draws s seen t
      obtain ⟨xs, seen₂, hxs⟩ := exists_drawsAll s seen₁ ls
      exact ⟨_, _, .member hx hxs⟩
    | leaf label =>
      obtain ⟨xs, seen', hxs⟩ := exists_drawsAll s seen ls
      exact ⟨_, _, .leaf hxs⟩
termination_by (s.unseen seen, weight (pieces ls))
decreasing_by
  · exact .right' _ (Nat.le_refl _) (weight_type_lt t ls)
  · exact .right' _ (Store.unseen_le hx.tracks.kept) (weight_rest_lt _ ls)
  · exact .right' _ (Nat.le_refl _) (weight_member_lt name t ls)
  · exact .right' _ (Store.unseen_le hx.tracks.kept) (weight_rest_lt _ ls)
  · exact .right' _ (Nat.le_refl _) (weight_rest_lt _ ls)
end

end

namespace SymbolPrinter

section

open HeaderBinding.Symbol

variable {p : SymbolPrinter} {r : Reference} {k : Key} {n : Node} {t : NativeType} {rest : List Piece}

theorem write_text (text : String) : write s p (.text text :: rest) = write s (p.put text) rest := by
  rw [write]

theorem write_unlinked (hr : r.declaration? = none) :
    write s p (.type (.named r) :: rest) = write s ((p.put r.qualifier).put r.name) rest := by
  rw [write]
  split
  · next k hk =>
    rw [Reference.declaration?_eq_some.mpr hk] at hr
    cases hr
  · rfl

theorem write_again (hr : r.declaration? = some k) (hk : p.seen.has k = true) :
    write s p (.type (.named r) :: rest) = write s ((p.put r.qualifier).put r.name) rest := by
  rw [write, Reference.declaration?_eq_some.mp hr]
  dsimp only
  rw [if_pos hk]

theorem write_missing (hr : r.declaration? = some k) (hk : p.seen.has k = false) (hn : s.node? k = none) :
    write s p (.type (.named r) :: rest) = write s (((p.put r.qualifier).enter k).put r.name) rest := by
  rw [write, Reference.declaration?_eq_some.mp hr]
  dsimp only
  rw [if_neg (by simp [hk])]
  split
  · next n hn' => cases hn.symm.trans hn'
  · rfl

theorem write_body (hr : r.declaration? = some k) (hk : p.seen.has k = false) (hn : s.node? k = some n) :
    write s p (.type (.named r) :: rest) =
      write s (((p.put r.qualifier).enter k).put n.label) (pieces n.limbs ++ rest) := by
  rw [write, Reference.declaration?_eq_some.mp hr]
  dsimp only
  rw [if_neg (by simp [hk])]
  split
  · next n' hn' =>
    cases hn.symm.trans hn'
    rfl
  · next hn' => cases hn.symm.trans hn'

theorem write_inPlace (ht : t.reference? = none) : write s p (.type t :: rest) =
    match t.ownKey? with
    | some k =>
      if p.seen.has k then write s (p.put t.label) rest
      else write s ((p.put t.label).enter k) (pieces t.limbs ++ rest)
    | none => write s (p.put t.label) (pieces t.limbs ++ rest) := by
  cases t with
  | named r => cases ht
  | _ =>
    rw [write]
    all_goals first | rfl | (intro r hr; cases hr)

theorem reference?_eq_none_of_ownKey? (hk : t.ownKey? = some k) : t.reference? = none := by
  cases t with
  | named r => cases hk
  | _ => rfl

theorem put_put (text text' : String) : (p.put text).put text' = p.put (text ++ text') := by
  rw [put, put, put, String.append_assoc]

end

section

open HeaderBinding.Symbol

theorem pieces_type (t : NativeType) (ls : List Limb) (rest : List Piece) :
    pieces (.type t :: ls) ++ rest = .text "(" :: .type t :: .text ")" :: (pieces ls ++ rest) :=
  rfl

theorem pieces_member (name : String) (t : NativeType) (ls : List Limb) (rest : List Piece) :
    pieces (.member name t :: ls) ++ rest =
      .text ("(" ++ name ++ "(") :: .type t :: .text "))" :: (pieces ls ++ rest) :=
  rfl

theorem pieces_leaf (label : String) (ls : List Limb) (rest : List Piece) :
    pieces (.leaf label :: ls) ++ rest = .text ("(" ++ label ++ ")") :: (pieces ls ++ rest) :=
  rfl

mutual
theorem write_of_draws {seen seen' : Seen} {t : NativeType} {x : SymbolTree} (h : Draws s seen t x seen')
    (out : String) (rest : List Piece) :
    write s ⟨seen, out⟩ (.type t :: rest) = write s ⟨seen', out ++ x.text⟩ rest := by
  cases h with
  | unlinked hr =>
    rw [write_unlinked hr, put_put]
    rfl
  | again hr hk =>
    rw [write_again hr hk, put_put]
    rfl
  | missing hr hk hn =>
    rw [write_missing hr hk hn, text, ← String.append_assoc]
    rfl
  | body hr hk hn hxs =>
    rw [write_body hr hk hn, text, ← String.append_assoc, ← String.append_assoc]
    exact write_of_drawsAll hxs ..
  | ownAgain hk hseen =>
    rw [write_inPlace (reference?_eq_none_of_ownKey? hk), hk]
    dsimp only
    rw [if_pos hseen, text, textAll, String.append_empty]
    rfl
  | own hk hseen hxs =>
    rw [write_inPlace (reference?_eq_none_of_ownKey? hk), hk]
    dsimp only
    rw [if_neg (by simp [hseen]), text, ← String.append_assoc]
    exact write_of_drawsAll hxs ..
  | inner hk ht hxs =>
    rw [write_inPlace ht, hk, text, ← String.append_assoc]
    exact write_of_drawsAll hxs ..

theorem write_of_drawsAll {seen seen' : Seen} {ls : List Limb} {xs : List SymbolTree} (h : DrawsAll s seen ls xs seen')
    (out : String) (rest : List Piece) :
    write s ⟨seen, out⟩ (pieces ls ++ rest) = write s ⟨seen', out ++ textAll xs⟩ rest := by
  cases h with
  | nil =>
    rw [textAll, String.append_empty]
    rfl
  | type hx hxs =>
    rw [pieces_type, write_text]
    refine (write_of_draws hx ..).trans ?_
    rw [write_text]
    refine (write_of_drawsAll hxs ..).trans ?_
    simp only [textAll, String.append_assoc]
  | member hx hxs =>
    have hclose : "))" = ")" ++ ")" := rfl
    rw [pieces_member, write_text]
    refine (write_of_draws hx ..).trans ?_
    rw [write_text]
    refine (write_of_drawsAll hxs ..).trans ?_
    simp only [hclose, textAll, text, String.append_assoc, String.append_empty]
  | leaf hxs =>
    rw [pieces_leaf, write_text]
    refine (write_of_drawsAll hxs ..).trans ?_
    simp only [textAll, text, String.append_assoc, String.append_empty]
end

end

theorem printType_of_draws {seen : Seen} {t : NativeType} {x : SymbolTree} (h : Draws s .nothing t x seen)
    (p : SymbolPrinter) : p.printType s t = (x.text, ⟨seen, ""⟩) := by
  have hwrite : write s p.reset [.type t] = ⟨seen, "" ++ x.text⟩ := (write_of_draws h "" []).trans (by rw [write])
  rw [printType, hwrite, take, String.empty_append]

theorem printDeclaration_of_drawsAll {seen : Seen} {k : Key} {n : Node} {xs : List SymbolTree} (hn : s.node? k = some n)
    (h : DrawsAll s (Seen.nothing.add k) n.limbs xs seen) (p : SymbolPrinter) :
    p.printDeclaration s k = (some (SymbolTree.part n.label xs).text, ⟨seen, ""⟩) := by
  have hwrite := write_of_drawsAll h n.label []
  rw [List.append_nil, write] at hwrite
  have hstart : (p.reset.enter k).put n.label = ⟨Seen.nothing.add k, n.label⟩ := by
    rw [reset, enter, put, String.empty_append]
  rw [printDeclaration, hn]
  dsimp only
  rw [hstart, hwrite, take, text]

theorem printDeclaration_missing {k : Key} (hn : s.node? k = none) (p : SymbolPrinter) :
    p.printDeclaration s k = (none, p) := by
  rw [printDeclaration, hn]

end SymbolPrinter

end HeaderBinding
