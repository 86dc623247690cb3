import Scriptlet.Binary64.Arith
import Scriptlet.Value.Basic

/-!
Operators on values. Numbers are taken as doubles; arithmetic on two integers is narrowed back to an
integer.
-/

namespace Scriptlet

namespace Operator

def arithmetic? : Operator → Option (Binary64 → Binary64 → Binary64)
  | add => some Binary64.add
  | sub => some Binary64.sub
  | mul => some Binary64.mul
  | div => some Binary64.div
  | mod => some Binary64.rem
  | _ => none

def ordering? : Operator → Option (Binary64 → Binary64 → Bool)
  | greater => some fun x y => y.lt x
  | less => some fun x y => x.lt y
  | greaterEqual => some fun x y => y.le x
  | lessEqual => some fun x y => x.le y
  | _ => none

/-- Operators without a meaning for two integers of which the second is zero. -/
def divides : Operator → Bool
  | div | mod => true
  | _ => false

end Operator

namespace Value

/-- The result of an arithmetic operation in the type of its operands. -/
def ofResult (integral : Bool) (x : Binary64) : Except TypeError.Cause Value :=
  if integral then x.narrow.map integer else .ok (float x)

def arithmetic (op : Operator) (left right : Value) : Except TypeError.Cause Value :=
  match left.toFloat?, right.toFloat? with
  | some x, some y =>
    let integral := left.isInteger && right.isInteger
    if integral && op.divides && y.isZero then .error .divisionByZero
    else
      match op.arithmetic? with
      | some f => ofResult integral (f x y)
      | none => .error .unknownExpression
  | _, _ => .error .expectedNumeric

def comparison (op : Operator) (left right : Value) : Except TypeError.Cause Value :=
  match left.toFloat?, right.toFloat? with
  | some x, some y =>
    match op.ordering? with
    | some rel => .ok (boolean (rel x y))
    | none => .error .unknownExpression
  | _, _ => .error .expectedNumeric

/-- Numbers are equal as doubles; other values only to the same value. -/
def equals (left right : Value) : Bool :=
  match left.toFloat?, right.toFloat? with
  | some x, some y => x.eq y
  | _, _ => left = right

def equality (op : Operator) (left right : Value) : Except TypeError.Cause Value :=
  match op with
  | .equal => .ok (boolean (left.equals right))
  | .notEqual => .ok (boolean (!left.equals right))
  | _ => .error .unknownExpression

def binary (op : Operator) (left right : Value) : Except TypeError.Cause Value :=
  match op.tier with
  | .equality => equality op left right
  | .comparison => comparison op left right
  | .term | .factor => arithmetic op left right

end Value

end Scriptlet
