import Scriptlet.SyntaxError
import Scriptlet.Token.Basic

/-!
Cutting a text into tokens. Each token is the longest one that starts at its place; blanks between
tokens are spaces, carriage returns and line feeds.
-/

namespace Scriptlet

/-- A place in a text: its line, counted from one, and what stands before it on that line, the last
character first. -/
structure Place where
  line : Nat
  before : List Char
deriving DecidableEq

namespace Place

def start : Place := ⟨1, []⟩

def step (p : Place) (c : Char) : Place :=
  if c = '\n' then ⟨p.line + 1, []⟩ else ⟨p.line, c :: p.before⟩

/-- The place after some characters. -/
def advance (p : Place) (cs : List Char) : Place :=
  cs.foldl step p

/-- The whole line around a place, given what follows the place. Carriage returns at its end belong
to the line's ending. -/
def lineText (p : Place) (after : List Char) : String :=
  String.ofList (Text.dropEndWhile (· == '\r') (p.before.reverse ++ after.takeWhile (· != '\n')))

/-- The error at a place, given what follows the place. -/
def error (p : Place) (after : List Char) (cause : SyntaxError.Cause) : SyntaxError where
  cause := cause
  line := p.line
  column := p.before.length
  sourceLine := p.lineText after

end Place

namespace Token

/-- What is wrong with a token, and how many characters after its start. -/
structure Flaw where
  cause : SyntaxError.Cause
  offset : Nat

def isBlank (c : Char) : Bool :=
  c == ' ' || c == '\r' || c == '\n'

def isNumberPart (c : Char) : Bool :=
  c.isDigit || c == '.'

def wordKind (word : String) : Kind :=
  if word = "let" then .letWord
  else if word = "mut" then .mutWord
  else if word = "while" then .whileWord
  else if word = "if" then .ifWord
  else if word = "true" then .trueWord
  else if word = "false" then .falseWord
  else .identifier

/-- The kind of a character that stands alone. -/
def symbolKind : Char → Kind
  | ';' => .semicolon
  | ':' => .colon
  | '=' => .assign
  | '(' => .leftParen
  | ')' => .rightParen
  | '{' => .leftBrace
  | '}' => .rightBrace
  | ',' => .comma
  | '.' => .dot
  | '+' => .plus
  | '-' => .minus
  | '*' => .star
  | '/' => .slash
  | '%' => .percent
  | '!' => .bang
  | '>' => .greater
  | '<' => .less
  | _ => .unknown

/-- The kind of a character followed by an equals sign, if the two are one symbol. -/
def doubleKind? : Char → Option Kind
  | '=' => some .equal
  | '!' => some .notEqual
  | '>' => some .greaterEqual
  | '<' => some .lessEqual
  | _ => none

/-- The kind of a run of digits and points. It may hold one point, not at its end. -/
def numberKind (run : List Char) : Except Flaw Kind :=
  match run.idxOf? '.' with
  | none => .ok .integer
  | some i =>
    let fraction := run.drop (i + 1)
    match fraction.idxOf? '.' with
    | some j => .error ⟨.invalidNumber, i + 1 + j⟩
    | none => if fraction.isEmpty then .error ⟨.invalidNumber, i⟩ else .ok .float

/-- The kind of the token that starts with `c`, and how many characters of `cs` belong to it. -/
def munch (c : Char) (cs : List Char) : Except Flaw (Kind × Nat) :=
  if c.isDigit then
    let run := cs.takeWhile isNumberPart
    (numberKind (c :: run)).map (·, run.length)
  else if c.isAlpha then
    let run := cs.takeWhile Char.isAlpha
    .ok (wordKind (String.ofList (c :: run)), run.length)
  else if c = '"' then
    match cs.idxOf? '"' with
    | none => .error ⟨.unterminatedString, 0⟩
    | some n => .ok (.string, n + 1)
  else if c = '\'' then
    match cs.idxOf? '\'' with
    | none => .error ⟨.unterminatedChar, 0⟩
    | some 0 => .error ⟨.emptyChar, 0⟩
    | some n => .ok (.char, n + 1)
  else
    match doubleKind? c with
    | some kind => .ok (if cs.head? = some '=' then (kind, 1) else (symbolKind c, 0))
    | none => .ok (symbolKind c, 0)

/-- The tokens of the text that follows a place, closed by the token of the end. -/
def scan (p : Place) : List Char → Except SyntaxError (List Token)
  | [] => .ok [⟨.finish, "", p.line⟩]
  | c :: cs =>
    if isBlank c then scan (p.step c) cs
    else
      match munch c cs with
      | .error flaw =>
        let text := c :: cs
        .error ((p.advance (text.take flaw.offset)).error (text.drop flaw.offset) flaw.cause)
      | .ok (kind, n) =>
        let lexeme := c :: cs.take n
        (scan (p.advance lexeme) (cs.drop n)).map (⟨kind, String.ofList lexeme, p.line⟩ :: ·)
termination_by cs => cs.length
decreasing_by
  · simp only [List.length_cons]
    omega
  · simp only [List.length_drop, List.length_cons]
    omega

end Token

def tokenize (text : String) : Except SyntaxError (List Token) :=
  Token.scan .start text.toList

end Scriptlet
