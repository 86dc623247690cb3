import Scriptlet.Expr.Basic
import Scriptlet.TypeError

/-!
Values of expressions.
-/

namespace Scriptlet

inductive Value where
  | integer (value : Int64)
  | float (value : Binary64)
  | string (value : String)
  | boolean (value : Bool)
deriving DecidableEq

namespace Value

def isInteger : Value → Bool
  | integer _ => true
  | _ => false

def isNumeric : Value → Bool
  | integer _ | float _ => true
  | _ => false

/-- A number as a double, to which an integer is rounded. -/
def toFloat? : Value → Option Binary64
  | integer n => some (.ofInt n.toInt)
  | float x => some x
  | _ => none

def asFloat (v : Value) : Except TypeError.Cause Binary64 :=
  match v.toFloat? with
  | some x => .ok x
  | none => .error .expectedNumeric

def render : Value → String
  | integer n => toString n.toInt
  | float x => x.render
  | string s => s
  | boolean b => if b then "true" else "false"

end Value

/-- Truth values and characters have no value of their own. -/
def Literal.value? : Literal → Option Value
  | integer n => some (.integer n)
  | float x => some (.float x)
  | string s => some (.string s)
  | bool _ | char _ => none

/-- Truncation of a double to an integer. -/
def Binary64.narrow (x : Binary64) : Except TypeError.Cause Int64 :=
  match x.toInt64? with
  | some n => .ok n
  | none => .error .overflow

end Scriptlet
