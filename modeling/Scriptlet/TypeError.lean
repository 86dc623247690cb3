/-!
Errors of evaluation. The innermost one has a cause; the ones around it say that an operand failed.
-/

namespace Scriptlet

inductive TypeError.Cause where
  | unknownPrimary
  | unknownExpression
  | expectedNumeric
  | divisionByZero
  | overflow
deriving DecidableEq

inductive TypeError where
  | raised (cause : TypeError.Cause) (line : Nat)
  | operand (inner : TypeError) (line : Nat)
deriving DecidableEq

namespace TypeError

def Cause.text : Cause → String
  | .unknownPrimary => "unknown primary expression"
  | .unknownExpression => "unknown expression"
  | .expectedNumeric => "expected numeric type"
  | .divisionByZero => "division by zero"
  | .overflow => "integer overflow"

def line : TypeError → Nat
  | raised _ line => line
  | operand _ line => line

def description : TypeError → String
  | raised cause _ => cause.text
  | operand .. => "error evaluating expression"

def render (e : TypeError) : String :=
  "TypeError: " ++ e.description ++ " on line " ++ toString e.line

/-- The errors inside this one, outermost first. -/
def causes : TypeError → List TypeError
  | raised .. => []
  | operand inner _ => inner :: inner.causes

def innermost : TypeError → Cause
  | raised cause _ => cause
  | operand inner _ => inner.innermost

end TypeError

end Scriptlet
