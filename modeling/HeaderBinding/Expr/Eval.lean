import HeaderBinding.Expr.Lexer
import HeaderBinding.Expr.Parser
import HeaderBinding.Expr.Value

namespace HeaderBinding

namespace Expr

def ofLookup (name : String) : Lookup → Except EvalError Value
  | .found v => .ok (.ofLiteral v)
  | .pending => .error (.pendingIdentifier name)
  | .unknown => .error (.unknownIdentifier name)

def valueIn (a : Arithmetic) (ctx : EvalContext) : Expr → Except EvalError Value
  | .integer l => Value.ofInteger a l
  | .floating x single => .ok (.floating x single)
  | .char c => .ok (.char c)
  | .string s => .ok (.string s)
  | .bool b => .ok (.bool b)
  | .ident name => ofLookup name (ctx.value name)
  | .unary op operand => do
    let v ← operand.valueIn a ctx
    v.unary a op
  | .binary .logicalAnd left right => do
    let v ← left.valueIn a ctx
    if !(← v.truth) then return .flag false
    let w ← right.valueIn a ctx
    return .flag (← w.truth)
  | .binary .logicalOr left right => do
    let v ← left.valueIn a ctx
    if ← v.truth then return .flag true
    let w ← right.valueIn a ctx
    return .flag (← w.truth)
  | .binary op left right => do
    let v ← left.valueIn a ctx
    let w ← right.valueIn a ctx
    v.binary a op w
  | .ternary condition thenExpr elseExpr => do
    let v ← condition.valueIn a ctx
    if ← v.truth then thenExpr.valueIn a ctx else elseExpr.valueIn a ctx
  | .cast target pointer operand => do
    let v ← operand.valueIn a ctx
    v.cast a (ctx.target target) target pointer

def evaluateIn (a : Arithmetic) (ctx : EvalContext) (e : Expr) : Except EvalError TypedLiteral := do
  let v ← e.valueIn a ctx
  v.toLiteral

def evaluate (ctx : EvalContext) (e : Expr) : Except EvalError TypedLiteral :=
  e.evaluateIn .words ctx

end Expr

def evaluateText (ctx : EvalContext) (source : String) : Except EvalError TypedLiteral := do
  let tokens ← tokenize source
  let e ← Expr.parse ctx.isType tokens
  e.evaluate ctx

end HeaderBinding
