import Scriptlet.Diagnostic
import Scriptlet.Evaluator
import Scriptlet.Reader.Program
import Scriptlet.Token.Scan

/-!
From text to value.
-/

namespace Scriptlet

/-- The program of a text. -/
def read (text : String) : Except SyntaxError (List Expr) :=
  tokenize text >>= parse

theorem read_of_tokenize {text : String} {tokens : List Token} (h : tokenize text = .ok tokens) :
    read text = parse tokens := by
  rw [read, h]
  rfl

theorem read_of_untokenized {text : String} {e : SyntaxError} (h : tokenize text = .error e) :
    read text = .error e := by
  rw [read, h]
  rfl

/-- The value of a text, or what is wrong with it. -/
def run (text : String) : Except Diagnostic Value :=
  match read text with
  | .error e => .error (.ofSyntaxError e)
  | .ok program => (interpret program).mapError .ofTypeError

end Scriptlet
