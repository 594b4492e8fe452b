import HeaderBinding.Proofs.Expr.Grammar
import HeaderBinding.Proofs.Expr.Refinement
import Mathlib.Data.List.Basic

namespace HeaderBinding

namespace Settled

variable {α β : Type} {r : Except EvalError α}

theorem bind (h : Settled r) {f : α → Except EvalError β} (hf : ∀ a, Settled (f a)) : Settled (r >>= f) := by
  cases r with
  | ok a => exact hf a
  | error e =>
    intro name heq
    cases heq
    exact h name rfl

theorem map (h : Settled r) (f : α → β) : Settled (r.map f) :=
  h.bind fun a => settled_ok (f a)

theorem of_error (h : Settled r) {e : EvalError} (he : r = .error e) : Settled (.error e : Except EvalError β) :=
  fun name heq => h name (by rw [he, Except.error.inj heq])

theorem ite {p : Prop} [Decidable p] {r' : Except EvalError α} (h : Settled r) (h' : Settled r') :
    Settled (if p then r else r') := by
  split
  · exact h
  · exact h'

end Settled

namespace Lexer

variable {α : Type}

theorem settled_malformed (text : List Char) : Settled (malformed text : Except EvalError α) :=
  settled_error rfl

theorem settled_escape (cs : List Char) : Settled (escape cs) := by
  cases cs with
  | nil => exact settled_malformed _
  | cons c cs =>
    unfold escape
    refine .ite (settled_ok _) (.ite (settled_ok _) (.ite (settled_ok _) (.ite ?octal (.ite ?hexadecimal ?simple))))
    case octal =>
      dsimp only
      split
      · exact settled_ok _
      · exact settled_malformed _
    case hexadecimal =>
      dsimp only
      split
      · split
        · exact settled_ok _
        · exact settled_malformed _
      · exact settled_malformed _
    case simple =>
      exact .ite (settled_ok _) (.ite (settled_ok _) (.ite (settled_ok _) (.ite (settled_ok _)
        (.ite (settled_ok _) (settled_malformed _)))))

theorem settled_closeChar {n : Nat} (r : Read Char n) : Settled (closeChar r) := by
  unfold closeChar
  split
  · exact settled_ok _
  · exact settled_malformed _

theorem settled_charLiteral (cs : List Char) : Settled (charLiteral cs) := by
  unfold charLiteral
  split
  · exact settled_malformed _
  · exact settled_malformed _
  · exact (settled_escape _).bind fun _ => settled_closeChar _
  · exact settled_closeChar _

theorem settled_stringLiteral (before cs : List Char) : Settled (stringLiteral before cs) := by
  induction before, cs using stringLiteral.induct with
  | case1 before =>
    rw [stringLiteral]
    exact settled_malformed _
  | case2 before cs =>
    rw [stringLiteral]
    exact settled_ok _
  | case3 before cs e he =>
    rw [stringLiteral, he]
    exact (settled_escape cs).of_error he
  | case4 before cs r hr _ ih =>
    rw [stringLiteral, hr]
    exact ih.map _
  | case5 before c cs hquote hbackslash ih =>
    rw [stringLiteral]
    · exact ih.map _
    · exact hquote
    · exact hbackslash

theorem settled_integer (lead digits : List Char) (base : Nat) (cs : List Char) :
    Settled (integer lead digits base cs) := by
  unfold integer
  dsimp only
  split
  · split
    · exact settled_ok _
    · exact settled_malformed _
  · exact settled_malformed _

theorem settled_decimalNumber (cs : List Char) : Settled (decimalNumber cs) := by
  unfold decimalNumber
  dsimp only
  split
  · exact settled_ok _
  · split
    · exact settled_ok _
    · split <;> exact (settled_integer _ _ _ _).map _

theorem settled_number (cs : List Char) : Settled (number cs) := by
  unfold number
  split
  · split
    · exact (settled_integer _ _ _ _).map _
    · exact settled_decimalNumber _
  · exact settled_decimalNumber _

theorem settled_operator (c : Char) (cs : List Char) : Settled (operator c cs) := by
  unfold operator
  split
  · exact settled_ok _
  · split
    · exact settled_ok _
    · exact settled_error rfl

theorem settled_lexeme (source : String) (c : Char) (cs : List Char) : Settled (lexeme source c cs) := by
  unfold lexeme
  split
  · exact settled_ok _
  split
  · split
    · next he => exact (settled_number _).of_error he
    · split
      · exact settled_ok _
      · exact settled_malformed _
  split
  · exact (settled_charLiteral cs).map _
  split
  · exact (settled_stringLiteral [] cs).map _
  split
  · exact settled_ok _
  split
  · exact settled_ok _
  split
  · split
    · exact settled_ok _
    · exact settled_error rfl
  split
  · exact settled_ok _
  · exact (settled_operator c cs).map _

theorem settled_tokensFrom (source : String) (cs : List Char) : Settled (tokensFrom source cs) := by
  induction cs using tokensFrom.induct source with
  | case1 =>
    rw [tokensFrom.eq_def]
    exact settled_ok _
  | case2 c cs e he =>
    rw [tokensFrom.eq_def]
    dsimp only
    rw [he]
    exact (settled_lexeme source c cs).of_error he
  | case3 c cs rest hlt hgap ih =>
    rw [tokensFrom.eq_def]
    dsimp only
    rw [hgap]
    exact ih
  | case4 c cs rest hlt hstop =>
    rw [tokensFrom.eq_def]
    dsimp only
    rw [hstop]
    exact settled_ok _
  | case5 c cs t rest hlt htoken e he ih =>
    rw [tokensFrom.eq_def]
    dsimp only
    rw [htoken]
    dsimp only
    rw [he]
    exact ih.of_error he
  | case6 c cs t rest hlt htoken ts hts ih =>
    rw [tokensFrom.eq_def]
    dsimp only
    rw [htoken]
    dsimp only
    rw [hts]
    exact settled_ok _

end Lexer

theorem settled_tokenize (source : String) : Settled (tokenize source) :=
  Lexer.settled_tokensFrom source source.toList

namespace Expr

theorem settled_expect (p : Punct) (ts : List Token) : Settled (expect p ts) := by
  unfold expect
  split
  · exact settled_error rfl
  · split
    · exact settled_ok _
    · exact settled_error rfl

theorem settled_parsers (isType : String → Bool) : (∀ ts, Settled (parseOperand isType ts)) ∧
    (∀ level ts, Settled (parseFrom isType level ts)) ∧ ∀ level n left, Settled (parseTail isType level n left) := by
  apply parseOperand.mutual_induct
  -- The parsers recurse into one another, so their cases are those of the joint recursion: first those that read an
  -- operand (a cast, a parenthesis, a prefix operator), then the levels, then what follows a left operand.
  case case8 =>
    intro rest target pointer rest' hlt hcast ih
    rw [parseOperand, hcast]
    exact ih.bind fun p => settled_ok _
  case case9 =>
    intro rest hcast ih
    rw [parseOperand, hcast]
    exact ih.bind fun inner => (settled_expect _ _).bind fun rest' => settled_ok _
  case case10 =>
    intro p rest hp op hop ih
    rw [parseOperand, hop]
    · exact ih.bind fun operand => settled_ok _
    · exact hp
  case case11 =>
    intro p rest hp hnone
    rw [parseOperand, hnone]
    · exact settled_error rfl
    · exact hp
  case case12 =>
    intro level ts ih ihTail
    rw [parseFrom]
    exact ih.bind fun first => ihTail first
  case case13 =>
    intro n left rest hrest ihThen ihElse ihTail
    rw [parseTail_question hrest]
    exact ihThen.bind fun a => (settled_expect _ _).bind fun colon => (ihElse a colon.1 colon.2).bind fun b =>
      ihTail a colon.1 colon.2 b
  case case15 =>
    intro level n left p rest hp hrest op hop hlevel ihRight ihTail
    obtain rfl := BinaryOp.ofPunct?_eq_some_iff.mp hop
    rw [parseTail_binary hrest hlevel]
    exact ihRight.bind fun right => ihTail right
  case case16 =>
    intro level n left p rest hp hrest op hop hlevel
    rw [parseTail]
    split
    · next heq => simp_all
    · next q rest' hq heq =>
      obtain ⟨rfl, rfl⟩ : q = p ∧ rest' = rest := by simp_all
      rw [hop]
      dsimp only
      rw [if_neg hlevel]
      exact settled_ok _
    · exact settled_ok _
  case case14 | case17 | case18 =>
    intros
    rw [parseTail]
    split <;> simp_all [settled_ok]
  all_goals
    intros
    rw [parseOperand]
    first
      | exact settled_ok _
      | exact settled_error rfl

theorem settled_parse (isType : String → Bool) (ts : List Token) : Settled (parse isType ts) := by
  refine ((settled_parsers isType).2.1 0 ts).bind fun p => ?_
  split
  · exact settled_ok _
  · exact settled_error rfl

end Expr

namespace Value

variable (a : Arithmetic)

theorem settled_unsupported {α : Type} (token : String) : Settled (unsupported token : Except EvalError α) :=
  settled_error rfl

theorem settled_truth (v : Value) : Settled v.truth := by
  cases v with
  | string s => exact settled_unsupported _
  | _ => exact settled_ok _

theorem settled_wrap (t : LiteralType) (n : Int) :
    Settled (match a.wrap? t n with
      | some m => .ok (Value.integer m t)
      | none => .error .outOfRange) := by
  split
  · exact settled_ok _
  · exact settled_error rfl

theorem settled_result (n : Int) (floor : LiteralType) : Settled (result a n floor) := by
  unfold result
  split
  · exact settled_ok _
  · split
    · exact settled_wrap a floor n
    · split
      · exact settled_ok _
      · exact settled_error rfl

theorem settled_ofInteger (l : IntegerLiteral) : Settled (ofInteger a l) := by
  unfold ofInteger
  split
  · exact settled_ok _
  · exact settled_result a _ _

theorem settled_unary (op : UnaryOp) (v : Value) : Settled (v.unary a op) := by
  cases v with
  | floating x single =>
    cases op with
    | bitwiseNot => exact settled_unsupported _
    | _ => exact settled_ok _
  | _ =>
    simp only [unary]
    split
    · exact settled_unsupported _
    · cases op with
      | neg => exact settled_result a _ _
      | plus => exact settled_result a _ _
      | logicalNot => exact settled_ok _
      | bitwiseNot => exact settled_wrap a _ _

theorem settled_shiftAmount (n : Int) : Settled (shiftAmount n) := by
  unfold shiftAmount
  split
  · exact settled_ok _
  · exact settled_error rfl

theorem settled_binaryInteger (op : BinaryOp) (m n : Int) (s t : LiteralType) :
    Settled (binaryInteger a op m n s t) := by
  cases op with
  | add | sub | bitwiseAnd | bitwiseOr | bitwiseXor => exact settled_result a _ _
  | mul =>
    simp only [binaryInteger]
    split
    · exact settled_result a _ _
    · exact settled_error rfl
  | div | mod =>
    simp only [binaryInteger]
    split
    · exact settled_error rfl
    · exact settled_result a _ _
  | shiftLeft | shiftRight => exact (settled_shiftAmount n).bind fun _ => settled_result a _ _
  | _ => exact settled_ok _

theorem settled_binaryFloating (op : BinaryOp) (x y : Float) (single : Bool) :
    Settled (binaryFloating op x y single) := by
  cases op with
  | div =>
    simp only [binaryFloating]
    split
    · exact settled_error rfl
    · exact settled_ok _
  | add | sub | mul | equal | notEqual | less | lessEqual | greater | greaterEqual => exact settled_ok _
  | _ => exact settled_unsupported _

theorem settled_binary (op : BinaryOp) (v w : Value) : Settled (v.binary a op w) := by
  unfold binary
  split
  · split
    · exact settled_binaryFloating op _ _ _
    · exact settled_unsupported _
  · split
    · exact settled_binaryInteger a op _ _ _ _
    · exact settled_unsupported _

theorem settled_castSource (target : String) (v : Value) : Settled (castSource target v) := by
  unfold castSource
  split
  · dsimp only
    split
    · exact settled_ok _
    · exact settled_error rfl
  · split
    · exact settled_ok _
    · exact settled_unsupported _

theorem settled_cast (denoted : CastTarget) (target : String) (pointer : Bool) (v : Value) :
    Settled (v.cast a denoted target pointer) := by
  unfold cast
  split
  · exact settled_unsupported _
  · cases denoted with
    | integer t => exact (settled_castSource target v).bind fun n => settled_wrap a t n
    | floating single =>
      dsimp only
      split
      · exact settled_ok _
      · exact settled_unsupported _
    | boolean => exact (settled_truth v).map _
    | noLiteral => exact settled_unsupported _
    | notAType => exact settled_error rfl

theorem settled_toLiteral (v : Value) : Settled v.toLiteral := by
  cases v with
  | integer n t =>
    simp only [toLiteral]
    split
    · exact settled_ok _
    · exact settled_error rfl
  | floating x single => cases single <;> exact settled_ok _
  | _ => exact settled_ok _

end Value

def WaitsForPending {α : Type} (ctx : EvalContext) (r : Except EvalError α) : Prop :=
  ∀ name, r = .error (.pendingIdentifier name) → ctx.value name = .pending

variable {ctx : EvalContext}

theorem Settled.waitsForPending {α : Type} {r : Except EvalError α} (h : Settled r) : WaitsForPending ctx r :=
  fun name heq => absurd heq (h name)

theorem WaitsForPending.bind {α β : Type} {r : Except EvalError α} (h : WaitsForPending ctx r)
    {f : α → Except EvalError β} (hf : ∀ a, WaitsForPending ctx (f a)) : WaitsForPending ctx (r >>= f) := by
  cases r with
  | ok a => exact hf a
  | error e =>
    intro name heq
    cases heq
    exact h name rfl

namespace Expr

theorem waitsForPending_ofLookup (name : String) : WaitsForPending ctx (ofLookup name (ctx.value name)) := by
  intro name' heq
  cases hv : ctx.value name with
  | found v =>
    rw [hv] at heq
    cases heq
  | unknown =>
    rw [hv] at heq
    cases heq
  | pending =>
    rw [hv] at heq
    cases heq
    exact hv

theorem waitsForPending_valueIn (a : Arithmetic) (e : Expr) : WaitsForPending ctx (e.valueIn a ctx) := by
  have htruth (v : Value) : WaitsForPending ctx v.truth := v.settled_truth.waitsForPending
  have hflag (b : Bool) : WaitsForPending ctx (.ok (Value.flag b)) := (settled_ok _).waitsForPending
  induction e with
  | integer l => exact (Value.settled_ofInteger a l).waitsForPending
  | ident name => exact waitsForPending_ofLookup name
  | unary op operand ih => exact ih.bind fun v => (Value.settled_unary a op v).waitsForPending
  | binary op left right ihl ihr =>
    cases op with
    | logicalAnd =>
      refine ihl.bind fun v => (htruth v).bind fun b => ?_
      cases b with
      | true => exact ihr.bind fun w => (htruth w).bind hflag
      | false => exact hflag false
    | logicalOr =>
      refine ihl.bind fun v => (htruth v).bind fun b => ?_
      cases b with
      | true => exact hflag true
      | false => exact ihr.bind fun w => (htruth w).bind hflag
    | _ => exact ihl.bind fun v => ihr.bind fun w => (Value.settled_binary a _ v w).waitsForPending
  | ternary condition thenExpr elseExpr ihc iht ihe =>
    refine ihc.bind fun v => (htruth v).bind fun b => ?_
    cases b with
    | true => exact iht
    | false => exact ihe
  | cast target pointer operand ih =>
    exact ih.bind fun v => (Value.settled_cast a _ target pointer v).waitsForPending
  | _ => exact (settled_ok _).waitsForPending

end Expr

theorem waitsForPending_evaluateText (ctx : EvalContext) (source : String) :
    WaitsForPending ctx (evaluateText ctx source) :=
  (settled_tokenize source).waitsForPending.bind fun tokens =>
    (Expr.settled_parse ctx.isType tokens).waitsForPending.bind fun e =>
      (e.waitsForPending_valueIn .words).bind fun v => v.settled_toLiteral.waitsForPending

theorem evaluateText_of_extension {c d : EvalContext} (htarget : ∀ name, c.target name = d.target name)
    (hfound : ∀ name v, c.value name = .found v → d.value name = .found v)
    (hunknown : ∀ name, c.value name = .unknown → d.value name = .unknown) (source : String) :
    ((∀ name, evaluateText c source ≠ .error (.pendingIdentifier name)) →
        evaluateText d source = evaluateText c source) ∧
      ∀ name, evaluateText c source = .error (.pendingIdentifier name) → c.value name = .pending := by
  have hrefines : c.Refines d := by
    refine ⟨funext htarget, fun name => ?_⟩
    cases hv : c.value name with
    | found v => exact .inr (hfound name v hv).symm
    | unknown => exact .inr (hunknown name hv).symm
    | pending => exact .inl rfl
  refine ⟨fun hsettled => ?_, waitsForPending_evaluateText c source⟩
  exact ((hrefines.evaluateText source).eq_of_settled hsettled).symm

def knowing (b : Lookup) : EvalContext :=
  ⟨fun name => if name = "A" then .found (.ofBool true) else if name = "B" then b else .unknown, CastTarget.ofSpelling⟩

theorem evaluateText_names (ctx : EvalContext) {source : String} (left right : String) (op : BinaryOp)
    (h : tokenize source = .ok [.ident left, .punct op.toPunct, .ident right]) :
    evaluateText ctx source = (Expr.binary op (.ident left) (.ident right)).evaluate ctx := by
  have hleft := @Expr.Spells.ident ctx.isType left [.punct op.toPunct, .ident right]
  have hright := @Expr.Spells.ident ctx.isType right []
  have hlevel := (Expr.level_bounds op).2
  have hspells := Expr.Spells.binary op (hleft.loosen (by omega)) (hright.loosen (by omega))
  have hparse := Expr.parse_of_spells (hspells.loosen (Nat.zero_le _))
  rw [evaluateText, h]
  change (Expr.parse ctx.isType _ >>= fun e => e.evaluate ctx) = _
  rw [hparse]
  rfl

theorem evaluateText_of_extension_knowing :
    evaluateText (knowing .unknown) "A || B" = .ok ⟨.int 1, .int32⟩ ∧
      evaluateText (knowing .pending) "A && B" = .error (.pendingIdentifier "B") ∧
        (knowing .pending).value "B" = .pending := by
  have hfound (name : String) (v : TypedLiteral) (hv : (knowing .pending).value name = .found v) :
      (knowing .unknown).value name = .found v := by
    unfold knowing at hv ⊢
    dsimp only at hv ⊢
    split at hv
    · rw [if_pos ‹_›, hv]
    · split at hv <;> cases hv
  have hunknown (name : String) (hv : (knowing .pending).value name = .unknown) :
      (knowing .unknown).value name = .unknown := by
    unfold knowing at hv ⊢
    dsimp only at hv ⊢
    split at hv
    · cases hv
    · rw [if_neg ‹_›]
      split at hv
      · cases hv
      · rw [if_neg ‹_›]
  have hextended := evaluateText_of_extension (c := knowing .pending) (d := knowing .unknown) (fun _ => rfl)
    hfound hunknown
  have hshort : evaluateText (knowing .pending) "A || B" = .ok ⟨.int 1, .int32⟩ :=
    (evaluateText_names _ "A" "B" .logicalOr (by decide +kernel)).trans (by decide +kernel)
  have hwaits : evaluateText (knowing .pending) "A && B" = .error (.pendingIdentifier "B") :=
    (evaluateText_names _ "A" "B" .logicalAnd (by decide +kernel)).trans (by decide +kernel)
  have hsettled (name : String) : evaluateText (knowing .pending) "A || B" ≠ .error (.pendingIdentifier name) := by
    rw [hshort]
    exact nofun
  exact ⟨((hextended "A || B").1 hsettled).trans hshort, hwaits, (hextended "A && B").2 "B" hwaits⟩

end HeaderBinding
