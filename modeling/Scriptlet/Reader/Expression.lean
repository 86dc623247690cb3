import Scriptlet.Expr.Basic
import Scriptlet.Numeral
import Scriptlet.Reader.Basic

/-!
Reading expressions. The four tiers of operators are chains that group to the left, each over the
next tighter tier, and the tightest over `!` and single operands.
-/

namespace Scriptlet

/-- The text between two quotes; a text that lacks one of them is left alone. -/
def unquote (quote : Char) (text : String) : String :=
  match text.toList with
  | first :: inner =>
    if first = quote ∧ inner.getLast? = some quote then String.ofList inner.dropLast else text
  | [] => text

/-- The expression of a token that is an operand of its own. -/
def Token.operand (t : Token) : Except SyntaxError.Cause Expr :=
  match t.kind with
  | .string => .ok (.literal (.string (unquote '"' t.lexeme)) t.line)
  | .integer =>
    match Numeral.int64? t.lexeme with
    | some n => .ok (.literal (.integer n) t.line)
    | none => .error .integerTooLarge
  | .float =>
    match Binary64.ofText? t.lexeme with
    | some x => .ok (.literal (.float x) t.line)
    | none => .error .invalidNumber
  | .char =>
    match (unquote '\'' t.lexeme).toList with
    | [c] => .ok (.literal (.char c) t.line)
    | _ => .error .invalidChar
  | .trueWord => .ok (.literal (.bool true) t.line)
  | .falseWord => .ok (.literal (.bool false) t.line)
  | .identifier => .ok (.reference t.lexeme t.line)
  | _ => .error (.expected "unknown token")

namespace Reader

def primary : Reader Expr :=
  token (.expected "unknown token") Token.operand

/-- Any number of `!` and a single operand. -/
def unaryRun : List Token → Step Expr
  | [] => primary.run []
  | t :: ts =>
    if t.kind = .bang then (unaryRun ts).map (.not · t.line) else primary.run (t :: ts)

theorem unaryRun_suffix (ts : List Token) : (unaryRun ts).rest <:+ ts := by
  induction ts with
  | nil => exact primary.suffix []
  | cons t ts ih =>
    simp only [unaryRun]
    split
    · exact ih.trans (List.suffix_cons t ts)
    · exact primary.suffix _

def unary : Reader Expr := ⟨unaryRun, unaryRun_suffix⟩

/-- The operator of this tier that a token stands for. -/
def operatorIn? (tier : Tier) (t : Token) : Option Operator :=
  t.kind.operator?.filter (·.tier = tier)

/-- A chain of one tier, of which `left` has been read. A literal zero after `/` is refused once it
has been read. -/
def extend (tier : Tier) (next : Reader Expr) (left : Expr) : List Token → Step Expr
  | [] => ⟨.ok left, []⟩
  | t :: ts =>
    match operatorIn? tier t with
    | none => ⟨.ok left, t :: ts⟩
    | some op =>
      let right := next.run ts
      match right.outcome with
      | .error refusal => ⟨.error refusal, right.rest⟩
      | .ok e =>
        if op = .div ∧ e.isZeroLiteral then ⟨.error ⟨.divisionByZero, ts⟩, right.rest⟩
        else extend tier next (.binary left op e t.line) right.rest
termination_by ts => ts.length
decreasing_by
  have := next.length_rest_le ts
  simp only [List.length_cons]
  omega

theorem extend_suffix (tier : Tier) (next : Reader Expr) (left : Expr) (ts : List Token) :
    (extend tier next left ts).rest <:+ ts := by
  fun_induction extend tier next left ts with
  | case1 => exact List.suffix_rfl
  | case2 => exact List.suffix_rfl
  | case3 left t ts op _ right => exact (next.suffix ts).trans (List.suffix_cons t ts)
  | case4 left t ts op _ right => exact (next.suffix ts).trans (List.suffix_cons t ts)
  | case5 left t ts op _ right e _ _ ih =>
    exact ih.trans ((next.suffix ts).trans (List.suffix_cons t ts))

/-- Operands of the tighter tier with operators of this tier between them, grouped to the left. -/
def chain (tier : Tier) (next : Reader Expr) : Reader Expr := do
  let first ← next
  ⟨extend tier next first, extend_suffix tier next first⟩

def factor : Reader Expr := chain .factor unary

def term : Reader Expr := chain .term factor

def comparison : Reader Expr := chain .comparison term

def equality : Reader Expr := chain .equality comparison

def expression : Reader Expr := equality

theorem consumes_primary : Consumes primary := consumes_token

theorem consumes_unary : Consumes unary := by
  intro ts
  induction ts with
  | nil => exact consumes_primary []
  | cons t ts ih =>
    intro a
    simp only [unary, unaryRun] at ih ⊢
    split
    · intro h
      cases ho : (unaryRun ts).outcome with
      | ok b =>
        have := ih b ho
        simp only [Step.map, List.length_cons]
        omega
      | error e => simp [Step.map, ho, Except.map] at h
    · exact consumes_primary (t :: ts) a

theorem consumes_chain {tier : Tier} {next : Reader Expr} (h : Consumes next) :
    Consumes (chain tier next) :=
  consumes_bind h

theorem consumes_expression : Consumes expression :=
  consumes_chain (consumes_chain (consumes_chain (consumes_chain consumes_unary)))

end Reader

end Scriptlet
