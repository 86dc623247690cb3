import Scriptlet.Binary64.Shortest
import Scriptlet.Operator

/-!
Literals and expressions. Every node keeps the line of the token that introduced it.
-/

namespace Scriptlet

inductive Literal where
  | integer (value : Int64)
  | float (value : Binary64)
  | bool (value : Bool)
  | string (value : String)
  | char (value : Char)
deriving DecidableEq

namespace Literal

def render : Literal → String
  | integer n => toString n.toInt
  | float x => x.render
  | bool b => if b then "true" else "false"
  | string s => s
  | char c => c.toString

/-- A number equal to zero, of either sign. -/
def isZero : Literal → Bool
  | integer n => n == 0
  | float x => x.isZero
  | _ => false

end Literal

inductive Expr where
  | literal (value : Literal) (line : Nat)
  | reference (name : String) (line : Nat)
  | declare (name : String) (isMutable : Bool) (typeName : Option String) (initial : Expr)
      (line : Nat)
  | not (operand : Expr) (line : Nat)
  | binary (left : Expr) (op : Operator) (right : Expr) (line : Nat)
deriving DecidableEq

namespace Expr

def line : Expr → Nat
  | literal _ line => line
  | reference _ line => line
  | declare _ _ _ _ line => line
  | not _ line => line
  | binary _ _ _ line => line

def isZeroLiteral : Expr → Bool
  | literal value _ => value.isZero
  | _ => false

def isDeclaration : Expr → Bool
  | declare .. => true
  | _ => false

/-- Leaves stand in square brackets and operators in round ones, so grouping is always shown. -/
def render : Expr → String
  | literal value _ => "[" ++ value.render ++ "]"
  | reference name _ => "[" ++ name ++ "]"
  | declare name isMutable typeName initial _ =>
    (if isMutable then "mut" else "") ++ "[" ++ name ++ "]" ++
      (match typeName with
        | some type => ": " ++ type
        | none => "") ++
      " = " ++ initial.render
  | not operand _ => "(! " ++ operand.render ++ ")"
  | binary left op right _ => "(" ++ left.render ++ " " ++ op.symbol ++ " " ++ right.render ++ ")"

end Expr

end Scriptlet
