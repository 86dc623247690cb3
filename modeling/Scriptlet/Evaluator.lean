import Scriptlet.Value.Operation

/-!
Evaluation. Every error of an expression carries one line, that of the statement being evaluated;
an evaluator remembers it from one program to the next.
-/

namespace Scriptlet

/-- A cause raised at a line. -/
def TypeError.atLine {α : Type} (line : Nat) (result : Except TypeError.Cause α) :
    Except TypeError α :=
  result.mapError (.raised · line)

/-- The value of an expression, with errors at the given line. A failing operand of an operator is
reported inside the failure of the whole. -/
def Expr.eval (line : Nat) : Expr → Except TypeError Value
  | .literal value _ =>
    match value.value? with
    | some v => .ok v
    | none => .error (.raised .unknownPrimary line)
  | .reference .. => .error (.raised .unknownExpression line)
  | .declare _ _ _ initial _ => initial.eval line
  | .not .. => .error (.raised .unknownExpression line)
  | .binary left op right _ =>
    match left.eval line with
    | .error e => .error (.operand e line)
    | .ok l =>
      match right.eval line with
      | .error e => .error (.operand e line)
      | .ok r => TypeError.atLine line (Value.binary op l r)

structure Evaluator where
  line : Nat
deriving DecidableEq

namespace Evaluator

def start : Evaluator := ⟨1⟩

/-- Evaluates one expression at the current line. -/
def eval (s : Evaluator) (e : Expr) : Except TypeError Value :=
  e.eval s.line

/-- Evaluates statements in order up to the first failure. The result is the last value, `last`
before there is one. -/
def continueWith (last : Value) : List Expr → Evaluator → Except TypeError Value × Evaluator
  | [], s => (.ok last, s)
  | e :: program, _ =>
    match e.eval e.line with
    | .error error => (.error error, ⟨e.line⟩)
    | .ok v => continueWith v program ⟨e.line⟩

/-- Evaluates a program. An empty one is worth zero. -/
def interpret (s : Evaluator) (program : List Expr) : Except TypeError Value × Evaluator :=
  continueWith (.integer 0) program s

/-- What an evaluator can be asked for. -/
inductive Request where
  | program (statements : List Expr)
  | single (expression : Expr)
deriving DecidableEq

def call (s : Evaluator) : Request → Except TypeError Value × Evaluator
  | .program statements => s.interpret statements
  | .single e => (s.eval e, s)

/-- The answers to several requests, and the evaluator after them. -/
def calls (s : Evaluator) : List Request → List (Except TypeError Value) × Evaluator
  | [] => ([], s)
  | request :: requests =>
    let (answer, s') := s.call request
    let (answers, s'') := s'.calls requests
    (answer :: answers, s'')

end Evaluator

/-- Evaluates a program from the start. -/
def interpret (program : List Expr) : Except TypeError Value :=
  (Evaluator.start.interpret program).1

end Scriptlet
