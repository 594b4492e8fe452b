import HeaderBinding.Expr.Error

namespace HeaderBinding

def Yields {α : Type} (P : α → Prop) (r : Except EvalError α) : Prop :=
  ∀ a, r = .ok a → P a

namespace Yields

variable {α β : Type} {P : α → Prop} {Q : β → Prop}

theorem ok {a : α} (h : P a) : Yields P (.ok a) := by
  intro b hb
  cases hb
  exact h

theorem error (P : α → Prop) (e : EvalError) : Yields P (.error e) := nofun

theorem bind {r : Except EvalError α} {f : α → Except EvalError β} (h : Yields P r)
    (hf : ∀ a, P a → Yields Q (f a)) : Yields Q (r >>= f) := by
  cases r with
  | ok a => exact hf a (h a rfl)
  | error e => exact error Q e

theorem imp {P' : α → Prop} {r : Except EvalError α} (h : Yields P r) (hP : ∀ a, P a → P' a) :
    Yields P' r :=
  fun a ha => hP a (h a ha)

theorem trivial (r : Except EvalError α) : Yields (fun _ => True) r :=
  fun _ _ => True.intro

end Yields

end HeaderBinding
