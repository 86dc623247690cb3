import Scriptlet.Reader.Program

/-!
Reading one list of tokens by several calls. A call starts where the one before has stopped, after
a refusal too.
-/

namespace Scriptlet

/-- The rules that can be called for. -/
inductive Rule where
  | program
  | statement
  | expression
  | equality
  | comparison
  | term
  | factor
  | unary
  | primary
deriving DecidableEq

namespace Rule

inductive Answer where
  | program (statements : List Expr)
  | single (expression : Expr)
deriving DecidableEq

def reader : Rule → Reader Answer
  | program => return .program (← Reader.program)
  | statement => return .single (← Reader.statement)
  | expression => return .single (← Reader.expression)
  | equality => return .single (← Reader.equality)
  | comparison => return .single (← Reader.comparison)
  | term => return .single (← Reader.term)
  | factor => return .single (← Reader.factor)
  | unary => return .single (← Reader.unary)
  | primary => return .single (← Reader.primary)

end Rule

structure Session where
  tokens : List Token
  cursor : Nat
deriving DecidableEq

namespace Session

def start (tokens : List Token) : Session := ⟨tokens, 0⟩

/-- One call: its answer, and the session moved on to what the reader has not read. -/
def call (s : Session) (rule : Rule) : Except SyntaxError Rule.Answer × Session :=
  let step := rule.reader.run (s.tokens.drop s.cursor)
  (step.outcome.mapError (·.locate s.tokens), { s with cursor := s.tokens.length - step.rest.length })

/-- The answers to several calls, and the session after them. -/
def calls (s : Session) : List Rule → List (Except SyntaxError Rule.Answer) × Session
  | [] => ([], s)
  | rule :: rules =>
    let (answer, s') := s.call rule
    let (answers, s'') := s'.calls rules
    (answer :: answers, s'')

end Session

end Scriptlet
