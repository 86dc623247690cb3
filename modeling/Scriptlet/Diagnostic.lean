import Scriptlet.SyntaxError
import Scriptlet.TypeError

/-!
What a failed run reports, whichever stage failed.
-/

namespace Scriptlet

inductive Diagnostic.Stage where
  | syntaxError
  | typeError
deriving DecidableEq

structure Diagnostic where
  stage : Diagnostic.Stage
  message : String
  line : Nat
  column : Option Nat
  sourceLine : Option String
deriving DecidableEq

namespace Diagnostic

def ofSyntaxError (e : SyntaxError) : Diagnostic where
  stage := .syntaxError
  message := e.message
  line := e.line
  column := some e.column
  sourceLine := some e.sourceLine

def ofTypeError (e : TypeError) : Diagnostic where
  stage := .typeError
  message := e.render
  line := e.line
  column := none
  sourceLine := none

/-- The caret is drawn only under a line. -/
def excerpt (d : Diagnostic) : String :=
  match d.sourceLine, d.column with
  | some text, some column => text ++ "\n" ++ Text.spaces column ++ "^\n"
  | some text, none => text ++ "\n"
  | none, _ => ""

def render (d : Diagnostic) : String :=
  d.excerpt ++ d.message

end Diagnostic

end Scriptlet
