import Scriptlet.Operator

/-!
Tokens: a kind, the exact text, and the line on which the text starts.
-/

namespace Scriptlet

inductive Token.Kind where
  | semicolon
  | colon
  | assign
  | leftParen
  | rightParen
  | leftBrace
  | rightBrace
  | comma
  | dot
  | plus
  | minus
  | star
  | slash
  | percent
  | bang
  | equal
  | notEqual
  | greater
  | less
  | greaterEqual
  | lessEqual
  | integer
  | float
  | char
  | string
  | trueWord
  | falseWord
  | identifier
  | letWord
  | mutWord
  | whileWord
  | ifWord
  | unknown
  | finish
  | newline
deriving DecidableEq

structure Token where
  kind : Token.Kind
  lexeme : String
  line : Nat
deriving DecidableEq

namespace Token

namespace Kind

def name : Kind → String
  | semicolon => "SemiColon"
  | colon => "Colon"
  | assign => "SingleEquals"
  | leftParen => "LeftParen"
  | rightParen => "RightParen"
  | leftBrace => "LeftBrace"
  | rightBrace => "RightBrace"
  | comma => "Comma"
  | dot => "Dot"
  | plus => "Plus"
  | minus => "Minus"
  | star => "Star"
  | slash => "Slash"
  | percent => "Modulo"
  | bang => "Exclamation"
  | equal => "DoubleEquals"
  | notEqual => "NotEquals"
  | greater => "GreaterThan"
  | less => "LessThan"
  | greaterEqual => "GreaterThanEquals"
  | lessEqual => "LessThanEquals"
  | integer => "Integer"
  | float => "Float"
  | char => "Char"
  | string => "String"
  | trueWord => "True"
  | falseWord => "False"
  | identifier => "Identifier"
  | letWord => "Let"
  | mutWord => "Mut"
  | whileWord => "While"
  | ifWord => "If"
  | unknown => "BadToken"
  | finish => "Eof"
  | newline => "NewLine"

def all : List Kind :=
  [semicolon, colon, assign, leftParen, rightParen, leftBrace, rightBrace, comma, dot, plus, minus,
    star, slash, percent, bang, equal, notEqual, greater, less, greaterEqual, lessEqual, integer,
    float, char, string, trueWord, falseWord, identifier, letWord, mutWord, whileWord, ifWord,
    unknown, finish, newline]

def ofName? (name : String) : Option Kind :=
  all.find? fun kind => kind.name == name

/-- The operator that a token of this kind stands for between two operands. -/
def operator? : Kind → Option Operator
  | equal => some .equal
  | notEqual => some .notEqual
  | greater => some .greater
  | less => some .less
  | greaterEqual => some .greaterEqual
  | lessEqual => some .lessEqual
  | plus => some .add
  | minus => some .sub
  | star => some .mul
  | slash => some .div
  | percent => some .mod
  | _ => none

/-- Literals and identifiers, each an operand of its own. -/
def isOperand : Kind → Bool
  | string | integer | float | char | trueWord | falseWord | identifier => true
  | _ => false

end Kind

def render (t : Token) : String :=
  "Line " ++ toString t.line ++ ": ^" ++ t.lexeme ++ "^  " ++ t.kind.name

end Token

end Scriptlet
