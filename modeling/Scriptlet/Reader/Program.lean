import Scriptlet.Reader.Expression

/-!
Reading programs: declarations, each with its own semicolon, and expressions with a semicolon or the
end after each. Further semicolons mean nothing.
-/

namespace Scriptlet

namespace Reader

def typeName : Reader (Option String) := do
  if ← accept .colon then
    let type ← expect .identifier "expected type"
    return some type.lexeme
  else
    return none

/-- A declaration sets out one operand, not a whole expression. -/
def declaration : Reader Expr := do
  let _ ← expect .letWord "expected let"
  let isMutable ← accept .mutWord
  let name ← expect .identifier "expected identifier"
  let type ← typeName
  let _ ← expect .assign "expected ="
  let _ ← require Token.Kind.isOperand "expected expression"
  let initial ← primary
  let _ ← expect .semicolon "expected ;"
  return .declare name.lexeme isMutable type initial name.line

def statement : Reader Expr where
  run ts := if peek ts = .letWord then declaration.run ts else expression.run ts
  suffix ts := by
    split
    · exact declaration.suffix ts
    · exact expression.suffix ts

/-- The semicolon after an expression, which the end can stand for. -/
def separator : Reader Unit where
  run ts :=
    if peek ts = .semicolon then ⟨.ok (), ts.tail⟩
    else if peek ts = .finish then ⟨.ok (), ts⟩
    else ⟨.error ⟨.expected "expected ;", ts⟩, ts⟩
  suffix ts := by
    split
    · exact List.tail_suffix ts
    · split <;> exact List.suffix_rfl

/-- A statement with what closes it. -/
def item : Reader Expr := do
  let e ← statement
  if e.isDeclaration then
    return e
  else
    separator
    return e

theorem consumes_declaration : Consumes declaration := consumes_bind consumes_token

theorem consumes_statement : Consumes statement := by
  intro ts a
  simp only [statement]
  split
  · exact consumes_declaration ts a
  · exact consumes_expression ts a

theorem consumes_item : Consumes item := consumes_bind consumes_statement

/-- The items up to the end, in order. -/
def programRun : List Token → Step (List Expr)
  | [] => ⟨.ok [], []⟩
  | t :: ts =>
    if t.kind = .finish then ⟨.ok [], t :: ts⟩
    else if t.kind = .semicolon then programRun ts
    else
      match h : (item.run (t :: ts)).outcome with
      | .error refusal => ⟨.error refusal, (item.run (t :: ts)).rest⟩
      | .ok e =>
        have := consumes_item (t :: ts) e h
        (programRun (item.run (t :: ts)).rest).map (e :: ·)
termination_by ts => ts.length
decreasing_by
  · simp only [List.length_cons]
    omega
  · exact this

theorem programRun_suffix (ts : List Token) : (programRun ts).rest <:+ ts := by
  fun_induction programRun ts with
  | case1 => exact List.suffix_rfl
  | case2 => exact List.suffix_rfl
  | case3 t ts _ _ ih => exact ih.trans (List.suffix_cons t ts)
  | case4 t ts => exact item.suffix (t :: ts)
  | case5 t ts _ _ e _ _ ih => exact ih.trans (item.suffix (t :: ts))

def program : Reader (List Expr) := ⟨programRun, programRun_suffix⟩

end Reader

/-- The program of a list of tokens. -/
def parse (tokens : List Token) : Except SyntaxError (List Expr) :=
  (Reader.program.run tokens).outcome.mapError (·.locate tokens)

end Scriptlet
