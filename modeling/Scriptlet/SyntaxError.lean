import Scriptlet.Text

/-!
Errors of spelling and grammar: a cause, the place, and the line it stands on.
-/

namespace Scriptlet

inductive SyntaxError.Cause where
  | invalidNumber
  | unterminatedString
  | unterminatedChar
  | emptyChar
  | invalidChar
  | expected (what : String)
  | divisionByZero
  | integerTooLarge
deriving DecidableEq

structure SyntaxError where
  cause : SyntaxError.Cause
  line : Nat
  column : Nat
  sourceLine : String
deriving DecidableEq

namespace SyntaxError

def Cause.text : Cause → String
  | .invalidNumber => "invalid numeric literal"
  | .unterminatedString => "unterminated string literal"
  | .unterminatedChar => "unterminated char literal"
  | .emptyChar => "empty char literal"
  | .invalidChar => "invalid char literal"
  | .expected what => "'" ++ what ++ "'"
  | .divisionByZero => "'division by zero'"
  | .integerTooLarge => "'integer literal too large'"

def message (e : SyntaxError) : String :=
  "Syntax Error: " ++ e.cause.text ++ " on line " ++ toString e.line

/-- The line, a caret under the column, and the message. -/
def render (e : SyntaxError) : String :=
  e.sourceLine ++ "\n" ++ Text.spaces e.column ++ "^\n" ++ e.message

end SyntaxError

end Scriptlet
