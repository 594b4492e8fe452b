import HeaderBinding.Proofs.Graph.Drawing
import HeaderBinding.Proofs.Graph.Search
import Mathlib.Data.Nat.PSub

namespace HeaderBinding

variable {s : Store}

open SymbolTree (textAll)

def nest (depth : Nat) (c : Char) : Option Nat :=
  if c = '(' then some (depth + 1) else if c = ')' then depth.ppred else some depth

def Balanced (text : String) : Prop :=
  text.toList.foldlM nest 0 = some 0

def Bare (text : String) : Prop :=
  ∀ c ∈ text.toList, c ≠ '(' ∧ c ≠ ')'

instance (text : String) : Decidable (Balanced text) :=
  inferInstanceAs (Decidable (_ = _))

instance (text : String) : Decidable (Bare text) :=
  decidable_of_iff (text.toList.all fun c => c != '(' && c != ')') (by simp [Bare])

def Closes (text : String) : Prop :=
  ∀ depth, text.toList.foldlM nest depth = some depth

section

variable {text text' : String}

theorem Closes.balanced (h : Closes text) : Balanced text :=
  h 0

theorem foldlM_nest_of_bare {cs : List Char} (h : ∀ c ∈ cs, c ≠ '(' ∧ c ≠ ')') (depth : Nat) :
    cs.foldlM nest depth = some depth := by
  induction cs with
  | nil => rfl
  | cons c cs ih =>
    obtain ⟨⟨hopen, hclose⟩, hcs⟩ := List.forall_mem_cons.mp h
    rw [List.foldlM_cons, nest, if_neg hopen, if_neg hclose]
    exact ih hcs

theorem Bare.closes (h : Bare text) : Closes text :=
  foldlM_nest_of_bare h

theorem Closes.empty : Closes "" :=
  fun _ => rfl

theorem Closes.append (h : Closes text) (h' : Closes text') : Closes (text ++ text') := by
  intro depth
  rw [String.toList_append, List.foldlM_append, h]
  exact h' depth

theorem Closes.parenthesized (h : Closes text) : Closes ("(" ++ text ++ ")") := by
  intro depth
  rw [String.toList_append, String.toList_append, List.foldlM_append, List.foldlM_append]
  have hopen : "(".toList.foldlM nest depth = some (depth + 1) := rfl
  have hinside := h (depth + 1)
  have hclose : ")".toList.foldlM nest (depth + 1) = some depth := rfl
  simp only [hopen, hinside, hclose, Option.bind_eq_bind, Option.bind_some]

end

def NativeType.symbolWords : NativeType → List String
  | .builtin _ | .pointer _ => []
  | .array _ _ (some (.constant name)) => [name]
  | .array _ _ _ => []
  | .synonym name _ => [name]
  | .named r => [r.name]
  | .record _ body => body.name :: body.members.map (·.name)
  | .enumeration e => e.name :: e.members.map (·.name)
  | .function s => [s.name]

def Node.symbolWords : Node → List String
  | .synonym d => [d.name]
  | .definition (.record _ body) => body.name :: body.members.map (·.name)
  | .definition (.enumeration e) => e.name :: e.members.flatMap fun m => m.name :: m.expr.toList

def NativeType.IsBare (t : NativeType) : Prop :=
  ∀ u ∈ t.visit, ∀ w ∈ u.symbolWords, Bare w

def Node.IsBare (n : Node) : Prop :=
  (∀ w ∈ n.symbolWords, Bare w) ∧ ∀ t ∈ n.roots, t.IsBare

def Store.IsBare (s : Store) : Prop :=
  ∀ k n, s.node? k = some n → n.IsBare

def Limb.IsBare : Limb → Prop
  | .type t => t.IsBare
  | .member name t => Bare name ∧ t.IsBare
  | .leaf label => Bare label

theorem Bare.append {text text' : String} (h : Bare text) (h' : Bare text') : Bare (text ++ text') := by
  unfold Bare
  rw [String.toList_append, List.forall_mem_append]
  exact ⟨h, h'⟩

theorem bare_anonymous {name : String} (h : Bare name) {word : String} (hword : Bare word) :
    Bare (NativeType.anonymous name word) := by
  unfold NativeType.anonymous
  split
  · exact hword
  · exact h

theorem bare_spelling (b : Builtin) : Bare b.spelling := by
  obtain ⟨kind, isUnsigned⟩ := b
  cases kind <;> cases isUnsigned <;> decide

theorem bare_toString (n : Nat) : Bare (toString n) := by
  intro c hc
  rw [Nat.toString_eq_repr, Nat.repr_eq_ofList_toDigits, String.toList_ofList] at hc
  have hdigit := Nat.isDigit_of_mem_toDigits (by decide) (by decide) hc
  constructor <;> rintro rfl <;> cases hdigit

namespace NativeType

variable {t : NativeType}

theorem isBare_iff : t.IsBare ↔ (∀ w ∈ t.symbolWords, Bare w) ∧ ∀ c ∈ t.children, c.IsBare := by
  unfold IsBare
  rw [visit_eq, List.forall_mem_cons]
  simp only [List.mem_flatMap]
  grind

theorem isBare_named {r : Reference} (h : Bare r.name) : (named r).IsBare :=
  isBare_iff.mpr ⟨List.forall_mem_singleton.mpr h, List.forall_mem_nil _⟩

theorem IsBare.label (h : t.IsBare) : Bare t.label := by
  have hwords := (isBare_iff.mp h).1
  cases t with
  | builtin b => exact bare_spelling b
  | pointer pointee => exact (by decide : Bare "*")
  | array element rank length =>
    rcases length with _ | ⟨n⟩ | ⟨name⟩
    · exact (by decide : Bare "[]")
    · exact (Bare.append (by decide) (bare_toString _)).append (by decide)
    · exact (Bare.append (by decide) (hwords _ (List.mem_singleton_self _))).append (by decide)
  | synonym name target => exact hwords _ (List.mem_singleton_self _)
  | named r => exact hwords _ (List.mem_singleton_self _)
  | record kind body =>
    refine bare_anonymous (hwords _ (List.mem_cons_self ..)) ?_
    cases kind <;> decide
  | enumeration e => exact bare_anonymous (hwords _ (List.mem_cons_self ..)) (by decide)
  | function s => exact bare_anonymous (hwords _ (List.mem_singleton_self _)) (by decide)

end NativeType

theorem isBare_members {ms : List (Member NativeType)} (hnames : ∀ w ∈ ms.map (·.name), Bare w)
    (htypes : ∀ t ∈ ms.map (·.type), t.IsBare) : ∀ l ∈ ms.map fun m => Limb.member m.name m.type, l.IsBare := by
  simp only [List.forall_mem_map] at *
  exact fun m hm => ⟨hnames m hm, htypes m hm⟩

theorem NativeType.IsBare.limbs {t : NativeType} (h : t.IsBare) : ∀ l ∈ t.limbs, l.IsBare := by
  obtain ⟨hwords, hchildren⟩ := isBare_iff.mp h
  cases t with
  | builtin b => exact List.forall_mem_nil _
  | named r => exact List.forall_mem_nil _
  | pointer pointee => exact List.forall_mem_singleton.mpr (hchildren _ (List.mem_singleton_self _))
  | array element rank length => exact List.forall_mem_singleton.mpr (hchildren _ (List.mem_singleton_self _))
  | synonym name target => exact List.forall_mem_singleton.mpr (hchildren _ (List.mem_singleton_self _))
  | record kind body => exact isBare_members (List.forall_mem_cons.mp hwords).2 hchildren
  | enumeration e =>
    have hnames := (List.forall_mem_cons.mp hwords).2
    rw [List.forall_mem_map] at hnames
    exact List.forall_mem_map.mpr hnames
  | function s =>
    obtain ⟨hreturns, hparams⟩ := List.forall_mem_cons.mp hchildren
    rw [List.forall_mem_map] at hparams
    exact List.forall_mem_cons.mpr ⟨hreturns, List.forall_mem_map.mpr hparams⟩

theorem Node.IsBare.label {n : Node} (h : n.IsBare) : Bare n.label := by
  refine h.1 _ ?_
  rcases n with d | ⟨kind, body⟩ | e <;> exact List.mem_cons_self ..

theorem Node.IsBare.limbs {n : Node} (h : n.IsBare) : ∀ l ∈ n.limbs, l.IsBare := by
  obtain ⟨hwords, hroots⟩ := h
  rcases n with d | ⟨kind, body⟩ | e
  · exact List.forall_mem_singleton.mpr (hroots _ (List.mem_singleton_self _))
  · exact isBare_members (List.forall_mem_cons.mp hwords).2 hroots
  · have hnames := (List.forall_mem_cons.mp hwords).2
    refine List.forall_mem_map.mpr fun m hm => ?_
    have hname : Bare m.name := hnames _ (List.mem_flatMap.mpr ⟨m, hm, List.mem_cons_self ..⟩)
    refine hname.append ?_
    split
    · next expr hexpr =>
      have hmem : expr ∈ m.name :: m.expr.toList := by simp [hexpr]
      exact Bare.append (by decide) (hnames _ (List.mem_flatMap.mpr ⟨m, hm, hmem⟩))
    · decide

theorem Reference.bare_qualifier (r : Reference) : Bare r.qualifier := by
  unfold qualifier
  split <;> decide

mutual
theorem Draws.closes (hs : s.IsBare) {seen seen' : Seen} {t : NativeType} {x : SymbolTree} (h : Draws s seen t x seen')
    (ht : t.IsBare) : Closes x.text := by
  have hlabel := ht.label.closes
  cases h with
  | unlinked _ => exact (Reference.bare_qualifier _).closes.append hlabel
  | again _ _ => exact (Reference.bare_qualifier _).closes.append hlabel
  | missing _ _ _ => exact (Reference.bare_qualifier _).closes.append hlabel
  | body _ _ hn hxs =>
    have hnode := hs _ _ hn
    exact ((Reference.bare_qualifier _).append hnode.label).closes.append (hxs.closes hs hnode.limbs)
  | ownAgain _ _ => exact hlabel.append .empty
  | own _ _ hxs => exact hlabel.append (hxs.closes hs ht.limbs)
  | inner _ _ hxs => exact hlabel.append (hxs.closes hs ht.limbs)

theorem DrawsAll.closes (hs : s.IsBare) {seen seen' : Seen} {ls : List Limb} {xs : List SymbolTree}
    (h : DrawsAll s seen ls xs seen') (hls : ∀ l ∈ ls, l.IsBare) : Closes (textAll xs) := by
  cases h with
  | nil => exact .empty
  | type hx hxs =>
    obtain ⟨hl, hls⟩ := List.forall_mem_cons.mp hls
    exact (hx.closes hs hl).parenthesized.append (hxs.closes hs hls)
  | member hx hxs =>
    obtain ⟨⟨hname, ht⟩, hls⟩ := List.forall_mem_cons.mp hls
    have hinside : Closes (textAll [_]) := (hx.closes hs ht).parenthesized.append .empty
    exact (hname.closes.append hinside).parenthesized.append (hxs.closes hs hls)
  | leaf hxs =>
    obtain ⟨hlabel, hls⟩ := List.forall_mem_cons.mp hls
    have hpart : Closes (SymbolTree.part _ []).text := hlabel.closes.append .empty
    exact hpart.parenthesized.append (hxs.closes hs hls)
end

theorem SymbolPrinter.print_outcome (s : Store) :
    (∀ t, (∃ x seen, Draws s .nothing t x seen) ∧ ∀ x seen, Draws s .nothing t x seen →
      (∀ p : SymbolPrinter, p.printType s t = (x.text, ⟨seen, ""⟩)) ∧ MentionedOnceInFull x.mentions ∧
        (s.IsBare → t.IsBare → Balanced x.text)) ∧
    (∀ k n, s.node? k = some n → (∃ xs seen, DrawsAll s (Seen.nothing.add k) n.limbs xs seen) ∧
      ∀ xs seen, DrawsAll s (Seen.nothing.add k) n.limbs xs seen →
        let x := SymbolTree.part n.label xs
        (∀ p : SymbolPrinter, p.printDeclaration s k = (some x.text, ⟨seen, ""⟩)) ∧
          MentionedOnceInFull (⟨k, true⟩ :: x.mentions) ∧ (s.IsBare → Balanced x.text)) ∧
    (∀ k, s.node? k = none → ∀ p : SymbolPrinter, p.printDeclaration s k = (none, p)) := by
  refine ⟨fun t => ⟨exists_draws s .nothing t, fun x seen h => ?_⟩, fun k n hn => ⟨exists_drawsAll .., ?_⟩, ?_⟩
  · exact ⟨printType_of_draws h, h.tracks.once, fun hs ht => (h.closes hs ht).balanced⟩
  · intro xs seen h
    have hentered : Tracks .nothing [⟨k, true⟩] (Seen.nothing.add k) := .first true rfl
    refine ⟨printDeclaration_of_drawsAll hn h, (hentered.append h.tracks).once, fun hs => ?_⟩
    have hnode := hs k n hn
    exact (hnode.label.closes.append (h.closes hs hnode.limbs)).balanced
  · exact fun k hn p => printDeclaration_missing hn p

theorem node?_ring (name : String) : ring.node? (.synonym name) =
    (ring.typedefs.toList.find? (Declaration.name · == name)).map .synonym :=
  follow?_ring name .empty

theorem isBare_ring : ring.IsBare := by
  have hword : (NativeType.builtin ⟨.int16, true⟩).IsBare :=
    NativeType.isBare_iff.mpr ⟨List.forall_mem_nil _, List.forall_mem_nil _⟩
  have hall : ∀ d ∈ ring.typedefs.toList, (Node.synonym d).IsBare := by
    have htypedefs : ring.typedefs.toList = [⟨"A", .named (typedefNamed "B" .empty)⟩,
      ⟨"B", .named (typedefNamed "A" .empty)⟩, ⟨"WORD", .builtin ⟨.int16, true⟩⟩] := rfl
    rw [htypedefs]
    simp only [List.forall_mem_cons]
    exact ⟨⟨by decide, List.forall_mem_singleton.mpr (NativeType.isBare_named (by decide))⟩,
      ⟨by decide, List.forall_mem_singleton.mpr (NativeType.isBare_named (by decide))⟩,
      ⟨by decide, List.forall_mem_singleton.mpr hword⟩, List.forall_mem_nil _⟩
  rintro ⟨category, name⟩ n hn
  cases category with
  | synonym =>
    obtain ⟨d, hd, rfl⟩ := Option.map_eq_some_iff.mp hn
    exact hall d (Table.mem_of_get?_eq_some hd).1
  | definedType =>
    obtain ⟨d, hd, -⟩ := Option.map_eq_some_iff.mp hn
    cases (Table.mem_of_get?_eq_some hd).1
  | constant => cases hn
  | procedure => cases hn

theorem isBare_ringUser : ringUser.IsBare := by
  refine NativeType.isBare_iff.mpr ⟨by decide, ?_⟩
  unfold ringUser NativeType.children
  simp only [List.map_cons, List.map_nil, List.forall_mem_cons]
  have hpointee := NativeType.isBare_named (r := typedefNamed "A" .empty) (by decide)
  exact ⟨NativeType.isBare_iff.mpr ⟨List.forall_mem_nil _, List.forall_mem_singleton.mpr hpointee⟩,
    NativeType.isBare_named (by decide), NativeType.isBare_named (by decide), NativeType.isBare_named (by decide),
    List.forall_mem_nil _⟩

theorem draws_ringUser : ∃ x seen, Draws ring .nothing ringUser x seen ∧
    x.text = "User(a(*(A(B(A)))))(word(WORD(unsigned short)))(gone(Gone))(b(B))" := by
  let s₁ := Seen.nothing.add (.definedType "User")
  let s₂ := s₁.add (.synonym "A")
  let s₃ := s₂.add (.synonym "B")
  let s₄ := s₃.add (.synonym "WORD")
  have hA : s₁.has (.synonym "A") = false := by decide +kernel
  have hB : s₂.has (.synonym "B") = false := by decide +kernel
  have hback : s₃.has (.synonym "A") = true := by decide +kernel
  have hword : s₃.has (.synonym "WORD") = false := by decide +kernel
  have hgone : s₄.has (.definedType "Gone") = false := by decide +kernel
  have hagain : (s₄.add (.definedType "Gone")).has (.synonym "B") = true := by decide +kernel
  have hdrawB := Draws.body (r := typedefNamed "B" .empty) rfl hB (node?_ring "B") (.type (.again rfl hback) (.nil _))
  have hdrawA := Draws.body (r := typedefNamed "A" .empty) rfl hA (node?_ring "A") (.type hdrawB (.nil _))
  have hpointer : Draws ring s₁ (.pointer (.named (typedefNamed "A" .empty))) _ s₃ :=
    .inner rfl rfl (.type hdrawA (.nil _))
  have hdrawWord := Draws.body (r := typedefNamed "WORD" .empty) rfl hword (node?_ring "WORD")
    (.type (.inner rfl rfl (.nil _)) (.nil _))
  have hmissing : Draws ring s₄ (.named ⟨"Gone", some (.declaration (.definedType "Gone")), .empty⟩) _ _ :=
    .missing rfl hgone (by cbv)
  have huser : Draws ring .nothing ringUser _ _ :=
    .own rfl rfl (.member hpointer (.member hdrawWord (.member hmissing (.member (.again rfl hagain) (.nil _)))))
  exact ⟨_, _, huser, by decide +kernel⟩

theorem drawsAll_ring : ∃ xs seen, DrawsAll ring (Seen.nothing.add (.synonym "A"))
    (Node.synonym ⟨"A", .named (typedefNamed "B" .empty)⟩).limbs xs seen ∧
      (SymbolTree.part "A" xs).text = "A(B(A))" := by
  have hB : (Seen.nothing.add (.synonym "A")).has (.synonym "B") = false := by decide +kernel
  have hback : ((Seen.nothing.add (.synonym "A")).add (.synonym "B")).has (.synonym "A") = true := by decide +kernel
  have hdrawB := Draws.body (r := typedefNamed "B" .empty) rfl hB (node?_ring "B") (.type (.again rfl hback) (.nil _))
  exact ⟨_, _, .type hdrawB (.nil _), by decide +kernel⟩

theorem SymbolPrinter.print_outcome_ring :
    ringUser.symbol ring = "User(a(*(A(B(A)))))(word(WORD(unsigned short)))(gone(Gone))(b(B))" ∧
      Balanced (ringUser.symbol ring) ∧ ring.symbol? (.synonym "A") = some "A(B(A))" ∧ Balanced "A(B(A))" ∧
        ring.symbol? (.definedType "Gone") = none := by
  obtain ⟨htypes, hdeclarations, hmissing⟩ := print_outcome ring
  obtain ⟨x, seen, huser, hx⟩ := draws_ringUser
  obtain ⟨hprint, -, hbalanced⟩ := (htypes ringUser).2 x seen huser
  have hsymbol : ringUser.symbol ring = x.text := congrArg Prod.fst (hprint .fresh)
  obtain ⟨xs, seen', hring, hxs⟩ := drawsAll_ring
  obtain ⟨hprintA, -, hbalancedA⟩ := (hdeclarations (.synonym "A") _ (node?_ring "A")).2 xs seen' hring
  have hsymbolA : ring.symbol? (.synonym "A") = some (SymbolTree.part "A" xs).text :=
    congrArg Prod.fst (hprintA .fresh)
  have hgone : ring.node? (.definedType "Gone") = none := by cbv
  refine ⟨hsymbol.trans hx, ?_, hsymbolA.trans (congrArg some hxs), hxs ▸ hbalancedA isBare_ring,
    congrArg Prod.fst (hmissing _ hgone .fresh)⟩
  rw [hsymbol]
  exact hbalanced isBare_ring isBare_ringUser

end HeaderBinding
