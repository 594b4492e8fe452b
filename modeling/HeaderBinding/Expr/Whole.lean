import HeaderBinding.Expr.Context
import HeaderBinding.Expr.Basic
import Mathlib.Data.Int.Bitwise

namespace HeaderBinding

def LiteralType.IsWide (t : LiteralType) : Prop :=
  t.width? = some 32 ∨ t.width? = some 64

instance : DecidablePred LiteralType.IsWide := fun _ => inferInstanceAs (Decidable (_ ∨ _))

inductive Expr.Whole (ctx : EvalContext) : Expr → Int → Prop
  | integer (l : IntegerLiteral) : Whole ctx (.integer l) l.value.toNat
  | char (c : Char) : Whole ctx (.char c) c.toNat
  | bool (b : Bool) : Whole ctx (.bool b) (if b then 1 else 0)
  | ident {name : String} {v : TypedLiteral} {n : Int} (hv : ctx.value name = .found v)
    (hn : v.literal.toInt? = some n) : Whole ctx (.ident name) n
  | plus {e : Expr} {n : Int} (h : Whole ctx e n) : Whole ctx (.unary .plus e) n
  | neg {e : Expr} {n : Int} (h : Whole ctx e n) : Whole ctx (.unary .neg e) (-n)
  | bitwiseNot {e : Expr} {n : Int} (h : Whole ctx e n) : Whole ctx (.unary .bitwiseNot e) (-n - 1)
  | add {e f : Expr} {m n : Int} (he : Whole ctx e m) (hf : Whole ctx f n) : Whole ctx (.binary .add e f) (m + n)
  | sub {e f : Expr} {m n : Int} (he : Whole ctx e m) (hf : Whole ctx f n) : Whole ctx (.binary .sub e f) (m - n)
  | mul {e f : Expr} {m n : Int} (he : Whole ctx e m) (hf : Whole ctx f n) : Whole ctx (.binary .mul e f) (m * n)
  | bitwiseAnd {e f : Expr} {m n : Int} (he : Whole ctx e m) (hf : Whole ctx f n) :
    Whole ctx (.binary .bitwiseAnd e f) (m.land n)
  | bitwiseOr {e f : Expr} {m n : Int} (he : Whole ctx e m) (hf : Whole ctx f n) :
    Whole ctx (.binary .bitwiseOr e f) (m.lor n)
  | bitwiseXor {e f : Expr} {m n : Int} (he : Whole ctx e m) (hf : Whole ctx f n) :
    Whole ctx (.binary .bitwiseXor e f) (m.xor n)
  | shiftLeft {e : Expr} {m : Int} {l : IntegerLiteral} (hl : l.value.toNat < 64) (he : Whole ctx e m) :
    Whole ctx (.binary .shiftLeft e (.integer l)) (m * 2 ^ l.value.toNat)
  | cast {target : String} {t : LiteralType} {e : Expr} {n : Int} (ht : ctx.target target = .integer t)
    (hwide : t.IsWide) (h : Whole ctx e n) : Whole ctx (.cast target false e) n

end HeaderBinding
