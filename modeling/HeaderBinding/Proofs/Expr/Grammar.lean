import HeaderBinding.Expr.Grammar
import HeaderBinding.Proofs.Expr.Yields

namespace HeaderBinding.Expr

variable {isType : String → Bool}

theorem names_eq (ts : List Token) :
    ts = (names ts).1.map .ident ++ (names ts).2.1 ∧ ∀ name, (names ts).2.1.head? ≠ some (.ident name) := by
  induction ts with
  | nil => exact ⟨rfl, nofun⟩
  | cons t ts ih =>
    cases t with
    | ident name => exact ⟨congrArg (List.cons (.ident name)) ih.1, ih.2⟩
    | _ => exact ⟨rfl, nofun⟩

theorem names_append (words : List String) {rest : List Token} (h : ∀ name, rest.head? ≠ some (.ident name)) :
    ∃ hle, names (words.map .ident ++ rest) = (words, ⟨rest, hle⟩) := by
  induction words with
  | nil =>
    cases rest with
    | nil => exact ⟨_, rfl⟩
    | cons t rest =>
      cases t with
      | ident name => exact absurd rfl (h name)
      | _ => exact ⟨_, rfl⟩
  | cons w words ih =>
    obtain ⟨hle, heq⟩ := ih
    refine ⟨Nat.le_succ_of_le hle, ?_⟩
    change names (.ident w :: (words.map .ident ++ rest)) = _
    rw [names, heq]

theorem stars_eq (ts : List Token) :
    ∃ n, ts = List.replicate n (.punct .star) ++ ts.dropWhile isStar ∧ ts.head?.any isStar = decide (0 < n) := by
  induction ts with
  | nil => exact ⟨0, rfl, rfl⟩
  | cons t ts ih =>
    cases ht : isStar t with
    | true =>
      have heq : t = .punct .star := by
        unfold isStar at ht
        split at ht
        · rfl
        · cases ht
      obtain ⟨n, hn, -⟩ := ih
      refine ⟨n + 1, ?_, ?_⟩
      · rw [List.dropWhile_cons_of_pos ht, List.replicate_succ, List.cons_append, ← hn, heq]
      · simp [ht]
    | false => exact ⟨0, by rw [List.dropWhile_cons_of_neg (by simp [ht])]; rfl, by simp [ht]⟩

theorem dropWhile_isStar (n : Nat) (rest : List Token) :
    (List.replicate n (Token.punct .star) ++ .punct .rightParen :: rest).dropWhile isStar =
      .punct .rightParen :: rest := by
  induction n with
  | zero => rfl
  | succ n ih => exact ih

theorem castHead?_eq_some {ts rest : List Token} {target : String} {pointer : Bool} {h : rest.length < ts.length}
    (hs : castHead? isType ts = some (target, pointer, ⟨rest, h⟩)) :
    ∃ words stars, ts = castHead words stars ++ rest ∧ words ≠ [] ∧ target = " ".intercalate words ∧
      isType target = true ∧ pointer = decide (0 < stars) ∧ (0 < stars ∨ rest.head?.any startsOperand = true) := by
  unfold castHead? at hs
  have hts := (names_eq ts).1
  rcases hn : names ts with ⟨words, afterNames, hle⟩
  rw [hn] at hs hts
  obtain ⟨stars, hstars, hpointer⟩ := stars_eq afterNames
  dsimp only at hs hts
  split at hs
  · next rest' hrest =>
    split at hs
    · next hcond =>
      simp only [Option.some.injEq, Prod.mk.injEq, Subtype.mk.injEq] at hs
      obtain ⟨rfl, rfl, rfl⟩ := hs
      simp only [Bool.and_eq_true, Bool.or_eq_true, Bool.not_eq_true', List.isEmpty_eq_false_iff] at hcond
      obtain ⟨⟨hwords, htype⟩, hnext⟩ := hcond
      refine ⟨words, stars, ?_, hwords, rfl, htype, hpointer, ?_⟩
      · rw [hts, hstars, hrest, castHead, List.append_assoc, List.append_assoc]
        rfl
      · rwa [hpointer, decide_eq_true_iff] at hnext
    · cases hs
  · cases hs

theorem castHead?_castHead {words : List String} {stars : Nat} {rest : List Token} (hwords : words ≠ [])
    (htype : isType (" ".intercalate words) = true) (h : 0 < stars ∨ rest.head?.any startsOperand = true) :
    ∃ hlt, castHead? isType (castHead words stars ++ rest) =
      some (" ".intercalate words, decide (0 < stars), ⟨rest, hlt⟩) := by
  let afterNames := List.replicate stars (Token.punct .star) ++ .punct .rightParen :: rest
  have hsplit : castHead words stars ++ rest = words.map .ident ++ afterNames := by
    simp [castHead, afterNames]
  have hhead : ∀ name, afterNames.head? ≠ some (.ident name) := by
    intro name
    cases stars <;> nofun
  have hpointer : afterNames.head?.any isStar = decide (0 < stars) := by
    cases stars <;> rfl
  obtain ⟨hle, hnames⟩ := names_append words hhead
  have hlt : rest.length < (words.map Token.ident ++ afterNames).length := by
    simp only [afterNames, List.length_append, List.length_cons]
    omega
  rw [hsplit]
  refine ⟨hlt, ?_⟩
  unfold castHead?
  rw [hnames]
  dsimp only
  split
  · next rest' hrest =>
    rw [dropWhile_isStar, List.cons.injEq] at hrest
    obtain ⟨-, rfl⟩ := hrest
    rw [hpointer]
    have hcond : (!words.isEmpty && isType (" ".intercalate words) &&
        (decide (0 < stars) || rest.head?.any startsOperand)) = true := by
      simp [hwords, htype, h]
    rw [if_pos hcond]
  · next hne => exact absurd (dropWhile_isStar stars rest) (hne rest)

theorem castHead?_eq_none {ts : List Token} (h : castHead? isType ts = none) : ¬ OpensCast isType ts := by
  rintro ⟨words, stars, rest, rfl, hwords, htype, hnext⟩
  obtain ⟨_, hsome⟩ := castHead?_castHead hwords htype hnext
  rw [h] at hsome
  cases hsome

theorem castHead?_of_not_opensCast {ts : List Token} (h : ¬ OpensCast isType ts) : castHead? isType ts = none := by
  cases hs : castHead? isType ts with
  | none => rfl
  | some head =>
    obtain ⟨target, pointer, rest, hlt⟩ := head
    obtain ⟨words, stars, rfl, hwords, rfl, htype, -, hnext⟩ := castHead?_eq_some hs
    exact absurd ⟨words, stars, rest, rfl, hwords, htype, hnext⟩ h

def outerLevel? : Token → Option Nat
  | .punct .question => some 0
  | .punct p => (BinaryOp.ofPunct? p).map BinaryOp.level
  | _ => none

def Stops (k : Nat) (ts : List Token) : Prop :=
  ∀ t ∈ ts.head?, ∀ m, outerLevel? t = some m → m < k

theorem level_bounds (op : BinaryOp) : 1 ≤ op.level ∧ op.level ≤ 10 := by
  cases op <;> decide

@[simp] theorem outerLevel?_toPunct (op : BinaryOp) : outerLevel? (.punct op.toPunct) = some op.level := by
  cases op <;> rfl

theorem outerLevel?_of_ne {p : Punct} (h : p = .question → False) :
    outerLevel? (.punct p) = (BinaryOp.ofPunct? p).map BinaryOp.level := by
  cases p <;> first | rfl | exact absurd rfl h

namespace Stops

theorem mono {j k : Nat} {ts : List Token} (h : Stops j ts) (hjk : j ≤ k) : Stops k ts :=
  fun t ht m hm => Nat.lt_of_lt_of_le (h t ht m hm) hjk

theorem of_head {k : Nat} {t : Token} {ts : List Token} (h : ∀ m, outerLevel? t = some m → m < k) :
    Stops k (t :: ts) := by
  intro t' ht
  cases ht
  exact h

theorem eleven (ts : List Token) : Stops 11 ts := by
  intro t _ m hm
  cases t with
  | punct p =>
    by_cases hp : p = .question
    · subst hp
      cases hm
      decide
    · rw [outerLevel?_of_ne hp] at hm
      obtain ⟨op, -, rfl⟩ := Option.map_eq_some_iff.mp hm
      exact Nat.lt_succ_of_le (level_bounds op).2
  | _ => cases hm

end Stops

theorem Spells.loosen {j k : Nat} {e : Expr} {ts rest : List Token} (h : Spells isType j e ts rest) (hkj : k ≤ j) :
    Spells isType k e ts rest := by
  induction hkj with
  | refl => exact h
  | step _ ih => exact ih (.tighter h)

theorem yields_expect (p : Punct) (ts : List Token) :
    Yields (fun rest : { rest : List Token // rest.length < ts.length } => ts = .punct p :: rest.1)
      (expect p ts) := by
  unfold expect
  split
  · exact Yields.error _ _
  · split
    · next t rest ht => exact Yields.ok (congrArg (· :: rest) ht)
    · exact Yields.error _ _

theorem takeWhile_isString (ts : List Token) :
    ts.takeWhile isString = ((ts.takeWhile isString).map stringOf).map .string := by
  rw [List.map_map]
  refine (List.map_id _).symm.trans (List.map_congr_left fun t ht => ?_)
  induction ts with
  | nil => cases ht
  | cons t' ts ih =>
    rw [List.takeWhile_cons] at ht
    split at ht
    · next hs =>
      rcases List.mem_cons.mp ht with rfl | ht
      · cases t <;> first | rfl | cases hs
      · exact ih ht
    · cases ht

theorem head_dropWhile_isString (ts : List Token) : (ts.dropWhile isString).head?.any isString = false := by
  cases h : (ts.dropWhile isString).head? with
  | none => rfl
  | some t =>
    have := List.head?_dropWhile_not isString ts
    rw [h] at this
    simpa using this

section

variable {level n : Nat} {left : Parsed n} {rest : List Token}

theorem parseTail_question (hrest : left.rest = .punct .question :: rest) :
    parseTail isType 0 n left = (do
      let thenExpr ← parseFrom isType 0 rest
      let afterColon ← expect .colon thenExpr.rest
      let elseExpr ← parseFrom isType 0 afterColon.1
      parseTail isType 0 n ⟨.ternary left.expr thenExpr.expr elseExpr.expr, elseExpr.rest, by
        have := left.length_lt
        have := thenExpr.length_lt
        have := afterColon.2
        have := elseExpr.length_lt
        simp only [hrest, List.length_cons] at *
        omega⟩) := by
  obtain ⟨e, afterLeft, hlt⟩ := left
  change afterLeft = _ at hrest
  subst hrest
  rw [parseTail]
  rfl

theorem parseTail_binary {op : BinaryOp} (hrest : left.rest = .punct op.toPunct :: rest) (hlevel : level ≤ op.level) :
    parseTail isType level n left = (do
      let right ← parseFrom isType (op.level + 1) rest
      parseTail isType level n ⟨.binary op left.expr right.expr, right.rest, by
        have := left.length_lt
        have := right.length_lt
        simp only [hrest, List.length_cons] at *
        omega⟩) := by
  obtain ⟨e, afterLeft, hlt⟩ := left
  change afterLeft = _ at hrest
  subst hrest
  rw [parseTail]
  cases op <;> exact if_pos hlevel

theorem parseTail_stops (h : Stops level left.rest) : parseTail isType level n left = .ok left := by
  rw [parseTail]
  split
  · next rest hrest =>
    rw [hrest] at h
    have hpos : 0 < level := h _ rfl 0 rfl
    rw [if_neg (by omega)]
  · next p rest hp hrest =>
    cases hop : BinaryOp.ofPunct? p with
    | none => rfl
    | some op =>
      rw [hrest] at h
      have hlt : op.level < level := by
        refine h _ rfl _ ?_
        rw [outerLevel?_of_ne hp, hop]
        rfl
      dsimp only
      rw [if_neg (by omega)]
  · rfl

theorem yields_stopped {ts : List Token} {j : Nat} (hj : level ≤ j) (hleft : Spells isType j left.expr ts left.rest)
    (h : Stops level left.rest) :
    Yields (fun p => Spells isType level p.expr ts p.rest ∧ Stops level p.rest) (parseTail isType level n left) := by
  rw [parseTail_stops h]
  exact Yields.ok ⟨hleft.loosen hj, h⟩

theorem yields_stopped_at {ts : List Token} {j : Nat} (hj : level ≤ j) (hleft : Spells isType j left.expr ts left.rest)
    {t : Token} (hrest : left.rest = t :: rest) (h : ∀ m, outerLevel? t = some m → m < level) :
    Yields (fun p => Spells isType level p.expr ts p.rest ∧ Stops level p.rest) (parseTail isType level n left) := by
  refine yields_stopped hj hleft ?_
  rw [hrest]
  exact Stops.of_head h

end

def SoundOperand (isType : String → Bool) (ts : List Token) : Prop :=
  Yields (fun p => Spells isType 11 p.expr ts p.rest) (parseOperand isType ts)

theorem SoundOperand.leaf {ts : List Token} {p : Parsed ts.length} (hp : parseOperand isType ts = .ok p)
    (h : Spells isType 12 p.expr ts p.rest) : SoundOperand isType ts := by
  rw [SoundOperand, hp]
  exact Yields.ok (.tighter h)

def SoundFrom (isType : String → Bool) (level : Nat) (ts : List Token) : Prop :=
  level ≤ 11 → Yields (fun p => Spells isType level p.expr ts p.rest ∧ Stops level p.rest)
    (parseFrom isType level ts)

def SoundTail (isType : String → Bool) (level n : Nat) (left : Parsed n) : Prop :=
  ∀ (ts : List Token) (j : Nat), level ≤ j → Spells isType j left.expr ts left.rest → Stops (j + 1) left.rest →
    (j = 0 → Stops 0 left.rest) →
    Yields (fun p => Spells isType level p.expr ts p.rest ∧ Stops level p.rest) (parseTail isType level n left)

theorem sound (isType : String → Bool) : (∀ ts, SoundOperand isType ts) ∧
    (∀ level ts, SoundFrom isType level ts) ∧ ∀ level n left, SoundTail isType level n left := by
  apply parseOperand.mutual_induct
  case case1 =>
    rw [SoundOperand, parseOperand]
    exact Yields.error _ _
  case case2 =>
    intro literal rest
    exact .leaf (by rw [parseOperand]) (.integer literal rest)
  case case3 =>
    intro value single rest
    exact .leaf (by rw [parseOperand]) (.floating value single rest)
  case case4 =>
    intro c rest
    exact .leaf (by rw [parseOperand]) (.char c rest)
  case case5 =>
    intro b rest
    exact .leaf (by rw [parseOperand]) (.bool b rest)
  case case6 =>
    intro name rest
    exact .leaf (by rw [parseOperand]) (.ident name rest)
  case case7 =>
    intro s rest
    have h := @Spells.string isType s ((rest.takeWhile isString).map stringOf) _ (head_dropWhile_isString rest)
    rw [List.map_cons, ← takeWhile_isString, List.cons_append, List.takeWhile_append_dropWhile,
      String.join_cons] at h
    exact .leaf (by rw [parseOperand]) h
  case case8 =>
    intro rest target pointer rest' hlt hcast ih
    rw [SoundOperand, parseOperand, hcast]
    obtain ⟨words, stars, rfl, hwords, rfl, htype, rfl, -⟩ := castHead?_eq_some hcast
    exact ih.bind fun p hp => Yields.ok (.cast hwords htype stars hp)
  case case9 =>
    intro rest hcast ih
    rw [SoundOperand, parseOperand, hcast]
    refine (ih (by omega)).bind fun inner ⟨hinner, _⟩ => (yields_expect _ _).bind fun rest' hrest => ?_
    rw [hrest] at hinner
    exact Yields.ok (.tighter (.paren hinner (castHead?_eq_none hcast)))
  case case10 =>
    intro p rest hp op hop ih
    rw [SoundOperand, parseOperand, hop]
    · rw [UnaryOp.ofPunct?_eq_some_iff.mp hop]
      exact ih.bind fun operand hoperand => Yields.ok (.unary op hoperand)
    · exact hp
  case case11 =>
    intro p rest hp hnone
    rw [SoundOperand, parseOperand, hnone]
    · exact Yields.error _ _
    · exact hp
  case case12 =>
    intro level ts ih ihTail hlevel
    rw [parseFrom]
    refine ih.bind fun first hfirst => ?_
    exact ihTail first ts 11 hlevel hfirst (Stops.eleven _ |>.mono (by decide)) nofun
  case case13 =>
    intro n left rest hrest ihThen ihElse ihTail ts j hj hleft hstops hternary
    rw [hrest] at hleft hternary
    have hcondition : Spells isType 1 left.expr ts (.punct .question :: rest) := by
      refine hleft.loosen (Nat.pos_of_ne_zero fun hzero => ?_)
      have hno := hternary hzero _ rfl 0 rfl
      omega
    rw [parseTail_question hrest]
    refine (ihThen (by omega)).bind fun a ⟨ha, _⟩ => (yields_expect _ _).bind fun colon hcolon => ?_
    rw [hcolon] at ha
    refine (ihElse a colon.1 colon.2 (by omega)).bind fun b ⟨hb, hbStops⟩ => ?_
    exact ihTail a colon.1 colon.2 b ts 0 (Nat.le_refl 0) (.ternary hcondition ha hb) (hbStops.mono (by omega))
      fun _ => hbStops
  case case14 =>
    intro level n left rest hrest hlevel ts j hj hleft hstops hternary
    refine yields_stopped_at hj hleft hrest fun m hm => ?_
    cases hm
    omega
  case case15 =>
    intro level n left p rest hp hrest op hop hlevel ihRight ihTail ts j hj hleft hstops hternary
    obtain rfl := BinaryOp.ofPunct?_eq_some_iff.mp hop
    rw [hrest] at hleft hstops
    have hle : op.level ≤ j := Nat.le_of_lt_succ (hstops _ rfl _ (outerLevel?_toPunct op))
    have hbounds := level_bounds op
    rw [parseTail_binary hrest hlevel]
    refine (ihRight (by omega)).bind fun right ⟨hright, hrightStops⟩ => ?_
    exact ihTail right ts op.level hlevel (.binary op (hleft.loosen hle) hright) hrightStops (by omega)
  case case16 =>
    intro level n left p rest hp hrest op hop hlevel ts j hj hleft hstops hternary
    obtain rfl := BinaryOp.ofPunct?_eq_some_iff.mp hop
    refine yields_stopped_at hj hleft hrest fun m hm => ?_
    rw [outerLevel?_toPunct] at hm
    cases hm
    omega
  case case17 =>
    intro level n left p rest hp hrest hnone ts j hj hleft hstops hternary
    refine yields_stopped_at hj hleft hrest fun m hm => ?_
    rw [outerLevel?_of_ne hp, hnone] at hm
    cases hm
  case case18 =>
    intro level n left hquestion hpunct ts j hj hleft hstops hternary
    refine yields_stopped hj hleft fun t ht m hm => ?_
    cases hrest : left.rest with
    | nil =>
      rw [hrest] at ht
      cases ht
    | cons t' rest =>
      rw [hrest] at ht
      cases ht
      cases t with
      | punct p => exact absurd hrest (hpunct p rest)
      | _ => cases hm

theorem Spells.startsOperand {k : Nat} {e : Expr} {ts rest : List Token} (h : Spells isType k e ts rest) :
    ts.head?.any startsOperand = true := by
  induction h with
  | unary op _ _ => cases op <;> rfl
  | binary _ _ _ ihl _ => exact ihl
  | ternary _ _ _ ihc _ _ => exact ihc
  | tighter _ ih => exact ih
  | _ => rfl

theorem takeWhile_strings (more : List String) {rest : List Token} (h : rest.head?.any isString = false) :
    (more.map Token.string ++ rest).takeWhile isString = more.map .string ∧
      (more.map Token.string ++ rest).dropWhile isString = rest := by
  induction more with
  | nil =>
    cases rest with
    | nil => exact ⟨rfl, rfl⟩
    | cons t rest =>
      have ht : ¬ isString t = true := by
        intro ht
        rw [List.head?_cons, Option.any_some, ht] at h
        cases h
      exact ⟨List.takeWhile_cons_of_neg ht, List.dropWhile_cons_of_neg ht⟩
  | cons s more ih =>
    refine ⟨?_, ih.2⟩
    rw [List.map_cons, List.cons_append, List.takeWhile_cons_of_pos rfl, ih.1]

def Reads {n : Nat} (r : Except EvalError (Parsed n)) (e : Expr) (rest : List Token) : Prop :=
  ∃ h, r = .ok ⟨e, rest, h⟩

def GoesOn (isType : String → Bool) (m : Nat) (ts : List Token) (e : Expr) (rest : List Token) : Prop :=
  ∃ h, parseFrom isType m ts = parseTail isType m ts.length ⟨e, rest, h⟩

theorem Reads.goesOn {m : Nat} {ts rest : List Token} {e : Expr} (h : Reads (parseOperand isType ts) e rest) :
    GoesOn isType m ts e rest := by
  obtain ⟨hlt, h⟩ := h
  refine ⟨hlt, ?_⟩
  rw [parseFrom, h]
  rfl

theorem GoesOn.reads {m : Nat} {ts rest : List Token} {e : Expr} (h : GoesOn isType m ts e rest)
    (hstops : Stops m rest) : Reads (parseFrom isType m ts) e rest := by
  obtain ⟨hlt, h⟩ := h
  refine ⟨hlt, ?_⟩
  rw [h, parseTail_stops hstops]

theorem expect_self (p : Punct) (ts : List Token) : ∃ h, expect p (.punct p :: ts) = .ok ⟨ts, h⟩ :=
  ⟨_, if_pos rfl⟩

theorem stops_punct {p : Punct} (h : outerLevel? (.punct p) = none) (k : Nat) (rest : List Token) :
    Stops k (.punct p :: rest) := by
  refine Stops.of_head fun m hm => ?_
  rw [h] at hm
  cases hm

theorem toPunct_ne_leftParen (op : UnaryOp) : op.toPunct ≠ .leftParen := by
  cases op <;> decide

theorem complete {k : Nat} {e : Expr} {ts rest : List Token} (h : Spells isType k e ts rest) :
    (11 ≤ k → Reads (parseOperand isType ts) e rest) ∧
      ∀ m ≤ k, Stops (k + 1) rest → (k = 0 → Stops 0 rest) → GoesOn isType m ts e rest := by
  -- By induction on how the tokens spell the expression. Operands are read in one go; from anything looser reading goes
  -- on, and comes to its end if nothing tighter follows.
  have operand : ∀ {k e ts rest}, Reads (parseOperand isType ts) e rest →
      (11 ≤ k → Reads (parseOperand isType ts) e rest) ∧
        ∀ m ≤ k, Stops (k + 1) rest → (k = 0 → Stops 0 rest) → GoesOn isType m ts e rest :=
    fun h => ⟨fun _ => h, fun _ _ _ _ => h.goesOn⟩
  induction h with
  | integer literal rest => exact operand ⟨_, by rw [parseOperand]⟩
  | floating value single rest => exact operand ⟨_, by rw [parseOperand]⟩
  | char c rest => exact operand ⟨_, by rw [parseOperand]⟩
  | bool b rest => exact operand ⟨_, by rw [parseOperand]⟩
  | ident name rest => exact operand ⟨_, by rw [parseOperand]⟩
  | string s more hrest =>
    refine operand ?_
    obtain ⟨htake, hdrop⟩ := takeWhile_strings more hrest
    have hmore : (more.map Token.string).map stringOf = more := by
      rw [List.map_map]
      exact List.map_id more
    refine ⟨by simp only [List.map_cons, List.cons_append, List.length_cons, List.length_append]; omega, ?_⟩
    change parseOperand isType (.string s :: (more.map .string ++ _)) = _
    rw [parseOperand]
    simp only [htake, hdrop, hmore, String.join_cons]
  | paren h hcast ih =>
    refine operand ?_
    obtain ⟨_, hinner⟩ := (ih.2 0 (Nat.le_refl 0) (stops_punct rfl 1 _) fun _ => stops_punct rfl 0 _).reads
      (stops_punct rfl 0 _)
    rw [Reads, parseOperand, castHead?_of_not_opensCast hcast, hinner]
    exact ⟨_, rfl⟩
  | unary op h ih =>
    refine operand ?_
    obtain ⟨_, hoperand⟩ := ih.1 (Nat.le_refl 11)
    have hop : UnaryOp.ofPunct? op.toPunct = some op := UnaryOp.ofPunct?_eq_some_iff.mpr rfl
    rw [Reads, parseOperand, hop, hoperand]
    · exact ⟨_, rfl⟩
    · exact toPunct_ne_leftParen op
  | cast hwords htype stars h ih =>
    refine operand ?_
    obtain ⟨_, hoperand⟩ := ih.1 (Nat.le_refl 11)
    obtain ⟨_, hhead⟩ := castHead?_castHead hwords htype (.inr h.startsOperand)
    rw [Reads, parseOperand, hhead]
    dsimp only
    rw [hoperand]
    exact ⟨_, rfl⟩
  | binary op hl hr ihl ihr =>
    have hbounds := level_bounds op
    refine ⟨fun hle => by omega, fun m hm hstops _ => ?_⟩
    obtain ⟨_, hleft⟩ := ihl.2 m hm (Stops.of_head (by simp)) (by omega)
    obtain ⟨_, hright⟩ := (ihr.2 (op.level + 1) (Nat.le_refl _) (hstops.mono (by omega)) (by omega)).reads hstops
    rw [GoesOn, hleft, parseTail_binary rfl hm, hright]
    exact ⟨_, rfl⟩
  | ternary hc ha hb ihc iha ihb =>
    refine ⟨fun hle => by omega, fun m hm _ hstops => ?_⟩
    obtain rfl := Nat.le_zero.mp hm
    have hcolon : ∀ k ts, Stops k (.punct .colon :: ts) := stops_punct rfl
    obtain ⟨_, hcondition⟩ := ihc.2 0 (by omega) (Stops.of_head (by simp [outerLevel?])) (by omega)
    obtain ⟨_, hthen⟩ := (iha.2 0 (Nat.le_refl 0) (hcolon _ _) fun _ => hcolon _ _).reads (hcolon _ _)
    obtain ⟨_, helse⟩ := (ihb.2 0 (Nat.le_refl 0) ((hstops rfl).mono (by omega)) hstops).reads (hstops rfl)
    obtain ⟨_, hcolonRead⟩ := expect_self .colon _
    rw [GoesOn, hcondition, parseTail_question rfl, hthen]
    dsimp only [bind, Except.bind]
    rw [hcolonRead]
    dsimp only
    rw [helse]
    exact ⟨_, rfl⟩
  | tighter h ih =>
    refine ⟨fun hle => ih.1 (by omega), fun m hm hstops _ => ?_⟩
    exact ih.2 m (by omega) (hstops.mono (by omega)) (by omega)

theorem parse_of_spells {ts : List Token} {e : Expr} (h : Spells isType 0 e ts []) : parse isType ts = .ok e := by
  have hnil : ∀ k, Stops k [] := fun _ => nofun
  obtain ⟨_, hread⟩ := ((complete h).2 0 (Nat.le_refl 0) (hnil 1) fun _ => hnil 0).reads (hnil 0)
  rw [parse, hread]
  rfl

theorem Spells.wellFormed {k : Nat} {e : Expr} {ts rest : List Token} (h : Spells isType k e ts rest) :
    e.WellFormed isType := by
  induction h with
  | unary _ _ ih => exact ih
  | paren _ _ ih => exact ih
  | tighter _ ih => exact ih
  | binary _ _ _ ihl ihr => exact ⟨ihl, ihr⟩
  | ternary _ _ _ ihc iha ihb => exact ⟨ihc, iha, ihb⟩
  | cast _ htype _ _ ih => exact ⟨htype, ih⟩
  | _ => exact True.intro

end HeaderBinding.Expr
