namespace HeaderBinding

inductive EvalError where
  | emptyExpression
  | unsupportedOperator (token : String)
  | unknownIdentifier (name : String)
  | pendingIdentifier (name : String)
  | malformedLiteral (text : String)
  | divisionByZero
  | outOfRange
  deriving DecidableEq, Repr

namespace EvalError

def name : EvalError → String
  | .emptyExpression => "EmptyExpression"
  | .unsupportedOperator _ => "UnsupportedOperator"
  | .unknownIdentifier _ => "UnknownIdentifier"
  | .pendingIdentifier _ => "PendingIdentifier"
  | .malformedLiteral _ => "MalformedLiteral"
  | .divisionByZero => "DivisionByZero"
  | .outOfRange => "OutOfRange"

def message : EvalError → String
  | .emptyExpression => "expression is empty"
  | .unsupportedOperator token => "unsupported operator or token '" ++ token ++ "'"
  | .unknownIdentifier name => "unknown identifier '" ++ name ++ "'"
  | .pendingIdentifier name => "identifier '" ++ name ++ "' has not been evaluated yet"
  | .malformedLiteral text => "malformed literal '" ++ text ++ "'"
  | .divisionByZero => "division by zero"
  | .outOfRange => "value out of range"

def isPending : EvalError → Bool
  | .pendingIdentifier _ => true
  | _ => false

end EvalError

end HeaderBinding
