import HeaderBinding.Expr.Eval

namespace HeaderBinding

structure EvalContext.Refines (c d : EvalContext) : Prop where
  target_eq : c.target = d.target
  value_eq : ∀ name, c.value name = .pending ∨ c.value name = d.value name

def Waits {α : Type} (c : EvalContext) (r r' : Except EvalError α) : Prop :=
  (∃ name, r = .error (.pendingIdentifier name) ∧ c.value name = .pending) ∨ r = r'

def Settled {α : Type} (r : Except EvalError α) : Prop :=
  ∀ name, r ≠ .error (.pendingIdentifier name)

theorem settled_ok {α : Type} (a : α) : Settled (.ok a) := nofun

theorem settled_error {α : Type} {e : EvalError} (he : e.isPending = false) :
    Settled (.error e : Except EvalError α) := by
  intro name h
  cases h
  cases he

namespace Waits

variable {α β : Type} {c : EvalContext} {r r' : Except EvalError α}

theorem refl (c : EvalContext) (r : Except EvalError α) : Waits c r r := .inr rfl

theorem bind (h : Waits c r r') {f g : α → Except EvalError β} (hf : ∀ a, Waits c (f a) (g a)) :
    Waits c (r >>= f) (r' >>= g) := by
  rcases h with ⟨name, rfl, hname⟩ | rfl
  · exact .inl ⟨name, rfl, hname⟩
  · cases r with
    | error e => exact .refl c _
    | ok a => exact hf a

theorem eq_of_settled (h : Waits c r r') (hr : Settled r) : r = r' := by
  rcases h with ⟨name, hname, -⟩ | h
  · exact absurd hname (hr name)
  · exact h

end Waits

namespace EvalContext.Refines

variable {c d : EvalContext}

theorem ofLookup (h : c.Refines d) (name : String) :
    Waits c (Expr.ofLookup name (c.value name)) (Expr.ofLookup name (d.value name)) := by
  rcases h.value_eq name with hp | he
  · exact .inl ⟨name, by rw [hp]; rfl, hp⟩
  · rw [he]
    exact .refl c _

theorem valueIn (h : c.Refines d) (a : Arithmetic) (e : Expr) :
    Waits c (e.valueIn a c) (e.valueIn a d) := by
  induction e with
  | integer l => exact .refl c _
  | floating x single => exact .refl c _
  | char x => exact .refl c _
  | string s => exact .refl c _
  | bool b => exact .refl c _
  | ident name => exact h.ofLookup name
  | unary op operand ih => exact ih.bind fun _ => .refl c _
  | binary op left right ihl ihr =>
    cases op with
    | logicalAnd =>
      refine ihl.bind fun v => (Waits.refl c v.truth).bind fun b => ?_
      cases b with
      | true => exact ihr.bind fun _ => .refl c _
      | false => exact .refl c _
    | logicalOr =>
      refine ihl.bind fun v => (Waits.refl c v.truth).bind fun b => ?_
      cases b with
      | true => exact .refl c _
      | false => exact ihr.bind fun _ => .refl c _
    | _ => exact ihl.bind fun _ => ihr.bind fun _ => .refl c _
  | ternary condition thenExpr elseExpr ihc iht ihe =>
    refine ihc.bind fun v => (Waits.refl c v.truth).bind fun b => ?_
    cases b with
    | true => exact iht
    | false => exact ihe
  | cast target pointer operand ih =>
    simp only [Expr.valueIn, h.target_eq]
    exact ih.bind fun _ => .refl c _

theorem evaluateText (h : c.Refines d) (source : String) :
    Waits c (evaluateText c source) (evaluateText d source) := by
  have htype : c.isType = d.isType := by
    funext name
    simp only [isType, h.target_eq]
  simp only [HeaderBinding.evaluateText, htype]
  exact (Waits.refl c _).bind fun _ => (Waits.refl c _).bind fun e =>
    (h.valueIn .words e).bind fun _ => .refl c _

end EvalContext.Refines

end HeaderBinding
