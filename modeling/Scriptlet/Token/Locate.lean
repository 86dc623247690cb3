import Scriptlet.SyntaxError
import Scriptlet.Token.Basic

/-!
Errors located at a token. The line shown is put together from the tokens that start on it, one
space between two.
-/

namespace Scriptlet.Token

def onLine (tokens : List Token) (line : Nat) : List Token :=
  tokens.filter (·.line == line)

/-- The tokens of a line as one text. -/
def lineText (tokens : List Token) (line : Nat) : String :=
  Text.trimEnd (" ".intercalate ((onLine tokens line).map lexeme))

/-- The characters of some tokens, with one more after each. -/
def width : List Token → Nat
  | [] => 0
  | t :: ts => t.lexeme.length + 1 + width ts

/-- The column at which the token of this index starts in the text of its line. -/
def column (tokens : List Token) (index line : Nat) : Nat :=
  width (onLine (tokens.take index) line)

/-- The error at the token of this index, or at the last token beyond the end. Without tokens it is
at the start. -/
def errorAt (tokens : List Token) (index : Nat) (cause : SyntaxError.Cause) : SyntaxError :=
  let index := min index (tokens.length - 1)
  match tokens[index]? with
  | none => ⟨cause, 1, 0, ""⟩
  | some token => ⟨cause, token.line, column tokens index token.line, lineText tokens token.line⟩

end Scriptlet.Token
