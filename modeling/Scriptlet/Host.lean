import Scriptlet.Run

/-!
What the command prints and its exit status, for a script given inline or as the bytes of a file.
-/

namespace Scriptlet

inductive Source where
  | inline (text : String)
  | file (name : String) (bytes : Option ByteArray)

structure Report where
  stdout : String
  stderr : String
  status : UInt8
deriving DecidableEq

namespace Host

def lines (texts : List String) : String :=
  String.join (texts.map (· ++ "\n"))

/-- The dump of tokens, between two empty lines. -/
def tokenDump (tokens : List Token) : String :=
  "\nTokens: \n" ++ lines (tokens.map ("  " ++ ·.render)) ++ "\n"

def programDump (program : List Expr) : String :=
  lines (program.map Expr.render)

/-- The report of a stage that stops the run. -/
def failure (trace : String) (d : Diagnostic) : Report :=
  ⟨trace, d.render ++ "\n", 1⟩

/-- What is printed of a dump. -/
def shown (debug : Bool) (dump : String) : String :=
  if debug then dump else ""

/-- Runs a script. With `debug`, tokens and statements are printed as soon as they are known. -/
def execute (debug : Bool) (text : String) : Report :=
  match tokenize text with
  | .error e => failure "" (.ofSyntaxError e)
  | .ok tokens =>
    let trace := shown debug (tokenDump tokens)
    match parse tokens with
    | .error e => failure trace (.ofSyntaxError e)
    | .ok program =>
      let trace := trace ++ shown debug (programDump program)
      match interpret program with
      | .error e => failure trace (.ofTypeError e)
      | .ok v => ⟨trace ++ v.render ++ "\n", "", 0⟩

def unreadable (name : String) : Report :=
  ⟨"", "Failed to read the input file '" ++ name ++ "'. Perhaps this file does not exist?\n", 1⟩

/-- A file can be read if it is there and holds UTF-8. -/
def answer (debug : Bool) : Source → Report
  | .inline text => execute debug text
  | .file name bytes =>
    match bytes.bind String.fromUTF8? with
    | some text => execute debug text
    | none => unreadable name

end Host

end Scriptlet
