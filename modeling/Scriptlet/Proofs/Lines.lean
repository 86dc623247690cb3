import Scriptlet.Proofs.Divisors
import Scriptlet.Proofs.Faults
import Scriptlet.Proofs.Sequence

/-!
Lines. Every node of a program is on the line of the token that introduced it, so that from left to
right, and from statement to statement, lines never decrease. A report names a line of the text, and
for a failed evaluation it is the line of the first statement that fails.
-/

namespace Scriptlet

open Grammar Token

/-- The lines of the nodes of an expression from left to right: an operation stands between its
operands, a negation and a declaration before what they hold. -/
def Expr.lines : Expr → List Nat
  | literal _ line => [line]
  | reference _ line => [line]
  | declare _ _ _ initial line => line :: initial.lines
  | not operand line => line :: operand.lines
  | binary left _ right line => left.lines ++ line :: right.lines

/-- The tokens of a statement, of which one introduces each node and gives it its line: the token of
a single operand, the `!` of a negation, the operator of an operation, and the declared name of a
declaration, which is the first token after `let` and `mut`. -/
inductive Introduces : List Token → Expr → Prop where
  | operand {t : Token} {e : Expr} : Primary t e → Introduces [t] e
  | not {t : Token} {us : List Token} {e : Expr} : t.kind = .bang → Introduces us e →
      Introduces (t :: us) (.not e t.line)
  | binary {us vs : List Token} {t : Token} {tier : Tier} {op : Operator} {left right : Expr} :
      Introduces us left → Joins tier t.kind op → Introduces vs right →
      Introduces (us ++ t :: vs) (.binary left op right t.line)
  | declare {start name assign value close : Token} {us vs : List Token} {isMutable : Bool}
      {type : Option String} {initial : Expr} : start.kind = .letWord → Mutability us isMutable →
      name.kind = .identifier → Annotation vs type → assign.kind = .assign →
      Introduces [value] initial → close.kind = .semicolon →
      Introduces (start :: us ++ name :: vs ++ [assign, value, close])
        (.declare name.lexeme isMutable type initial name.line)

/-- The tokens that do more than close a statement or the text. -/
def Token.bare (tokens : List Token) : List Token :=
  tokens.filter fun t => t.kind ≠ .semicolon ∧ t.kind ≠ .finish

variable {ts us vs : List Token} {t : Token} {e : Expr} {es : List Expr} {text : String}

theorem introduces_unary (h : Unary us e) : Introduces us e := by
  induction h with
  | primary hp => exact .operand hp
  | not ht _ ih => exact .not ht ih

theorem introduces_expression (h : Expression us e) : Introduces us e :=
  expression_induct (fun _ _ => introduces_unary) .binary h

theorem introduces_declaration (h : Declaration us e) : Introduces us e := by
  cases h with
  | intro hs hm hn ha he hp hc => exact .declare hs hm hn ha he (.operand hp) hc

theorem lines_primary (h : Primary t e) : e.lines = [t.line] := by
  cases h <;> rfl

/-- The lines of the nodes are among those of the tokens, in the same order. -/
theorem lines_sublist (h : Introduces us e) : e.lines.Sublist (us.map Token.line) := by
  induction h with
  | operand hp =>
    rw [lines_primary hp]
    exact List.Sublist.refl _
  | not _ _ ih => exact ih.cons_cons _
  | binary _ _ _ ihl ihr =>
    rw [List.map_append]
    exact ihl.append (ihr.cons_cons _)
  | @declare start name assign value close us vs _ _ initial _ _ _ _ _ _ _ ih =>
    have hv : initial.lines.Sublist ((vs ++ [assign, value, close]).map Token.line) :=
      ih.trans (List.singleton_sublist.mpr (by simp))
    have hn := (hv.cons_cons name.line).trans
      (List.sublist_append_right ((start :: us).map Token.line) _)
    simpa [Expr.lines] using hn

/-- The statements of a program have their tokens one after the other, with semicolons between. -/
theorem program_spans (h : Program us es) : ∃ spans, List.Forall₂ Introduces spans es ∧
    spans.flatten.Sublist us ∧ bare us = bare spans.flatten := by
  induction h with
  | nil => exact ⟨[], .nil, .slnil, rfl⟩
  | @semicolon t us es ht _ ih =>
    obtain ⟨spans, hi, hs, hb⟩ := ih
    refine ⟨spans, hi, hs.cons t, ?_⟩
    rw [← hb]
    simp [bare, ht]
  | @declaration us vs e es hd _ ih =>
    obtain ⟨spans, hi, hs, hb⟩ := ih
    refine ⟨us :: spans, .cons (introduces_declaration hd) hi, hs.append_left us, ?_⟩
    simp_all [bare]
  | @expression us vs t e es hx ht _ ih =>
    obtain ⟨spans, hi, hs, hb⟩ := ih
    refine ⟨us :: spans, .cons (introduces_expression hx) hi, (hs.cons t).append_left us, ?_⟩
    simp_all [bare]
  | @last us e hx =>
    exact ⟨[us], .cons (introduces_expression hx) .nil, by simp, by simp⟩

theorem spans_lines {spans : List (List Token)} (h : List.Forall₂ Introduces spans es) :
    (es.flatMap Expr.lines).Sublist (spans.flatten.map Token.line) := by
  induction h with
  | nil => exact .slnil
  | cons hi _ ih =>
    rw [List.flatMap_cons, List.flatten_cons, List.map_append]
    exact (lines_sublist hi).append ih

theorem line_mem_lines (e : Expr) : e.line ∈ e.lines := by
  cases e <;> simp [Expr.line, Expr.lines]

/-- The lines of the text are counted from one. -/
theorem token_line_bounds (h : tokenize text = .ok ts) (ht : t ∈ ts) :
    1 ≤ t.line ∧ t.line ≤ 1 + text.toList.count '\n' := by
  obtain ⟨_, _, hc⟩ := cut_of_scan h
  refine ⟨hc.ordered.2 t ht, ?_⟩
  obtain ⟨front, rfl, hs⟩ := scans_of_scan h
  rcases List.mem_append.mp ht with hf | hf
  · exact scans_line_le hs t hf
  · rw [List.mem_singleton.mp hf]
    exact le_rfl

theorem errorAt_line_mem {i : Nat} {cause : SyntaxError.Cause} (h : ts ≠ []) :
    ∃ t ∈ ts, (errorAt ts i cause).line = t.line := by
  have hlt : min i (ts.length - 1) < ts.length := by
    have := List.length_pos_iff.mpr h
    omega
  refine ⟨_, List.getElem_mem hlt, ?_⟩
  simp only [errorAt, List.getElem?_eq_getElem hlt]

/-- The statements of a text, with the tokens that introduce their nodes. -/
theorem parse_spans (ht : tokenize text = .ok ts) (hp : parse ts = .ok es) :
    ∃ spans, List.Forall₂ Introduces spans es ∧ spans.flatten.Sublist ts ∧
      bare ts = bare spans.flatten := by
  obtain ⟨front, rfl, hs⟩ := scans_of_scan ht
  obtain ⟨spans, hi, hsub, hb⟩ := program_spans (program_of_parse hs rfl hp)
  refine ⟨spans, hi, hsub.trans (List.sublist_append_left _ _), ?_⟩
  rw [← hb]
  simp [bare]

theorem parse_lines (ht : tokenize text = .ok ts) (hp : parse ts = .ok es) :
    (es.flatMap Expr.lines).Sublist (ts.map Token.line) := by
  obtain ⟨spans, hi, hs, _⟩ := parse_spans ht hp
  exact (spans_lines hi).trans (hs.map Token.line)

theorem statement_line_bounds (h : read text = .ok es) (he : e ∈ es) :
    1 ≤ e.line ∧ e.line ≤ 1 + text.toList.count '\n' := by
  obtain ⟨ts, ht, hp⟩ := read_eq_ok.mp h
  have hmem : e.line ∈ es.flatMap Expr.lines := List.mem_flatMap.mpr ⟨e, he, line_mem_lines e⟩
  obtain ⟨t, htmem, hl⟩ := List.mem_map.mp ((parse_lines ht hp).subset hmem)
  rw [← hl]
  exact token_line_bounds ht htmem

theorem fault_line_bounds {error : SyntaxError} (h : tokenize text = .error error) :
    1 ≤ error.line ∧ error.line ≤ 1 + text.toList.count '\n' := by
  obtain ⟨start, offset, _, hl⟩ := fault_of_tokenize h
  rw [hl.line]
  have hle : (text.toList.take (start + offset)).count '\n' ≤ text.toList.count '\n' :=
    (List.take_sublist _ _).count_le _
  omega

theorem refused_line_bounds {error : SyntaxError} (h : read text = .error error) :
    1 ≤ error.line ∧ error.line ≤ 1 + text.toList.count '\n' := by
  rcases read_eq_error.mp h with ht | ⟨ts, ht, hp⟩
  · exact fault_line_bounds ht
  · obtain ⟨x, _, rfl⟩ := parse_eq_error.mp hp
    have hne : ts ≠ [] := by
      obtain ⟨front, rfl, _⟩ := scans_of_scan ht
      simp
    obtain ⟨t, htmem, hl⟩ := errorAt_line_mem hne
    rw [Refusal.locate, hl]
    exact token_line_bounds ht htmem

theorem raisedAt_line {line : Nat} {node : Expr} {error : TypeError}
    (h : RaisedAt line e node error) : error.line = line := by
  induction h with
  | declare _ ih => exact ih
  | _ => rfl

/-- The statements before one have values, and that one has none. -/
def FirstFailure (program : List Expr) (e : Expr) (error : TypeError) : Prop :=
  ∃ before after, program = before ++ e :: after ∧
    (∀ s ∈ before, ∃ v, s.eval s.line = .ok v) ∧ e.eval e.line = .error error

/-- A failed evaluation is reported on the line of the first statement that fails. -/
theorem interpret_error_line {error : TypeError} (h : interpret es = .error error) :
    ∃ e ∈ es, FirstFailure es e error ∧ error.line = e.line := by
  obtain ⟨before, e, after, rfl, hb, he⟩ := continueWith_error h
  obtain ⟨node, hn⟩ := eval_error_raisedAt he
  exact ⟨e, by simp, ⟨before, after, rfl, hb, he⟩, raisedAt_line hn⟩

/-- Lines come through from the text to the report. Each node of a program is on the line of the
token that introduced it, the lines of the nodes never decrease from left to right and from
statement to statement, and a report is on a line of the text, that of the first failing statement
where an evaluation fails. -/
theorem lines_traced (text : String) :
    (∀ tokens program, tokenize text = .ok tokens → parse tokens = .ok program →
      (∃ spans, List.Forall₂ Introduces spans program ∧ spans.flatten.Sublist tokens ∧
        bare tokens = bare spans.flatten) ∧
      (program.flatMap Expr.lines).Pairwise (· ≤ ·)) ∧
      ∀ d, run text = .error d → 1 ≤ d.line ∧ d.line ≤ 1 + text.toList.count '\n' ∧
        (d.stage = .typeError → ∃ program e error, read text = .ok program ∧
          FirstFailure program e error ∧ d = .ofTypeError error ∧ d.line = e.line) := by
  constructor
  · intro tokens program ht hp
    obtain ⟨_, _, hc⟩ := cut_of_scan ht
    exact ⟨parse_spans ht hp, hc.ordered.1.sublist (parse_lines ht hp)⟩
  · intro d hd
    cases hr : read text with
    | error error =>
      rw [run_of_refused hr] at hd
      cases hd
      obtain ⟨hlow, hhigh⟩ := refused_line_bounds hr
      exact ⟨hlow, hhigh, fun hs => by cases hs⟩
    | ok program =>
      obtain ⟨error, hi, rfl⟩ := (run_eq_error hr).mp hd
      obtain ⟨e, he, hf, hl⟩ := interpret_error_line hi
      have hline : (Diagnostic.ofTypeError error).line = e.line := hl
      obtain ⟨hlow, hhigh⟩ := statement_line_bounds hr he
      rw [← hline] at hlow hhigh
      exact ⟨hlow, hhigh, fun _ => ⟨program, e, error, rfl, hf, rfl, hline⟩⟩

/-- A string goes over a line, and an operation has its operator on the line below its left
operand. -/
def straddling : String :=
  "let x = \"p\nq\";\n7\n% 0"

def straddlingTokens : List Token :=
  [⟨.letWord, "let", 1⟩, ⟨.identifier, "x", 1⟩, ⟨.assign, "=", 1⟩, ⟨.string, "\"p\nq\"", 1⟩,
    ⟨.semicolon, ";", 2⟩, ⟨.integer, "7", 3⟩, ⟨.percent, "%", 4⟩, ⟨.integer, "0", 4⟩,
    ⟨.finish, "", 4⟩]

def straddlingProgram : List Expr :=
  [.declare "x" false none (.literal (.string "p\nq") 1) 1,
    .binary (.literal (.integer 7) 3) .mod (.literal (.integer 0) 4) 4]

theorem lines_traced_straddling :
    tokenize straddling = .ok straddlingTokens ∧
      parse straddlingTokens = .ok straddlingProgram ∧
      (∃ spans, List.Forall₂ Introduces spans straddlingProgram ∧
        bare straddlingTokens = bare spans.flatten) ∧
      (straddlingProgram.flatMap Expr.lines).Pairwise (· ≤ ·) ∧
      ∃ program e error, read straddling = .ok program ∧ FirstFailure program e error ∧
        e.line = 4 := by
  have ht : tokenize straddling = .ok straddlingTokens := by decide +kernel
  have hp : parse straddlingTokens = .ok straddlingProgram := by decide +kernel
  have hd : run straddling =
      .error ⟨.typeError, "TypeError: division by zero on line 4", 4, none, none⟩ := by
    decide +kernel
  obtain ⟨hread, hfail⟩ := lines_traced straddling
  obtain ⟨⟨spans, hi, _, hb⟩, hl⟩ := hread _ _ ht hp
  obtain ⟨_, _, hfirst⟩ := hfail _ hd
  obtain ⟨program, e, error, hr, hf, _, he⟩ := hfirst rfl
  exact ⟨ht, hp, ⟨spans, hi, hb⟩, hl, program, e, error, hr, hf, he.symm⟩

end Scriptlet
