import Scriptlet.Proofs.CurrentLine
import Scriptlet.Proofs.Lines

/-!
Causes of failed evaluations. An expression fails at the first node, in the order of evaluation,
that fails although its operands have values, and each operation around that node adds one error.
A program fails with its first failing statement.
-/

namespace Scriptlet

/-- A node met in an evaluation, with the nodes around it from inside out. -/
structure Visit where
  node : Expr
  around : List Expr

namespace Expr

/-- The parts that are evaluated before a node. A negation is refused without a look inside. -/
def operands : Expr → List Expr
  | declare _ _ _ initial _ => [initial]
  | binary left _ right _ => [left, right]
  | _ => []

def isOperation : Expr → Bool
  | binary .. => true
  | _ => false

/-- The nodes in the order of evaluation: operands from left to right, then the node. -/
def visits (around : List Expr) : Expr → List Visit
  | literal value line => [⟨literal value line, around⟩]
  | reference name line => [⟨reference name line, around⟩]
  | declare name isMutable typeName initial line =>
    let e := declare name isMutable typeName initial line
    initial.visits (e :: around) ++ [⟨e, around⟩]
  | not operand line => [⟨not operand line, around⟩]
  | binary left op right line =>
    let e := binary left op right line
    left.visits (e :: around) ++ right.visits (e :: around) ++ [⟨e, around⟩]

def fails (line : Nat) (e : Expr) : Bool :=
  match e.eval line with
  | .ok _ => false
  | .error _ => true

/-- A node that fails although its operands do not. -/
def originates (line : Nat) (e : Expr) : Bool :=
  e.fails line && e.operands.all fun operand => !operand.fails line

/-- The first node that fails of itself. -/
def origin? (line : Nat) (around : List Expr) (e : Expr) : Option Visit :=
  (e.visits around).find? fun visit => visit.node.originates line

end Expr

/-- The operations around a node. -/
def Visit.operations (visit : Visit) : Nat :=
  visit.around.countP Expr.isOperation

/-- What a node reports of itself. -/
inductive OwnCause (line : Nat) : Expr → TypeError.Cause → Prop where
  | bool {b : Bool} {l : Nat} : OwnCause line (.literal (.bool b) l) .unknownPrimary
  | char {c : Char} {l : Nat} : OwnCause line (.literal (.char c) l) .unknownPrimary
  | reference {name : String} {l : Nat} : OwnCause line (.reference name l) .unknownExpression
  | not {operand : Expr} {l : Nat} : OwnCause line (.not operand l) .unknownExpression
  | binary {left right : Expr} {op : Operator} {l : Nat} {v w : Value} {cause : TypeError.Cause} :
      left.eval line = .ok v → right.eval line = .ok w → Value.binary op v w = .error cause →
      OwnCause line (.binary left op right l) cause

/-- An error inside a number of failed operands. -/
def TypeError.nested (line : Nat) (error : TypeError) : Nat → TypeError
  | 0 => error
  | n + 1 => .operand (nested line error n) line

variable {line n : Nat} {e node : Expr} {around : List Expr} {v : Value} {error : TypeError}
  {cause : TypeError.Cause} {visit : Visit} {program : List Expr} {s : Evaluator}

theorem fails_eq_true : e.fails line = true ↔ ∃ error, e.eval line = .error error := by
  rw [Expr.fails]
  cases e.eval line <;> simp

theorem fails_eq_false : e.fails line = false ↔ ∃ v, e.eval line = .ok v := by
  rw [Expr.fails]
  cases e.eval line <;> simp

/-- Nothing inside an expression with a value fails. -/
theorem visits_quiet (h : e.eval line = .ok v) :
    ∀ visit ∈ e.visits around, visit.node.fails line = false := by
  have hself : e.fails line = false := fails_eq_false.mpr ⟨v, h⟩
  induction e generalizing v around with
  | literal value l => simpa [Expr.visits] using hself
  | reference name l => cases h
  | declare name isMutable typeName initial l ih =>
    rw [Expr.visits, List.forall_mem_append]
    exact ⟨ih h hself, by simpa using hself⟩
  | not operand l => cases h
  | binary left op right l ihl ihr =>
    obtain ⟨x, y, hl, hr, _⟩ := eval_binary_ok h
    rw [Expr.visits, List.forall_mem_append, List.forall_mem_append]
    exact ⟨⟨ihl hl (fails_eq_false.mpr ⟨x, hl⟩), ihr hr (fails_eq_false.mpr ⟨y, hr⟩)⟩,
      by simpa using hself⟩

theorem origin?_eq_none (h : e.eval line = .ok v) : e.origin? line around = none := by
  rw [Expr.origin?, List.find?_eq_none]
  intro visit hv
  simp [Expr.originates, visits_quiet h visit hv]

theorem origin?_declare {name : String} {isMutable : Bool} {typeName : Option String}
    {initial : Expr} {l : Nat} (he : e = .declare name isMutable typeName initial l) :
    e.origin? line around =
      (initial.origin? line (e :: around)).or
        ([⟨e, around⟩].find? fun visit => visit.node.originates line) := by
  subst he
  exact List.find?_append

theorem origin?_binary {left right : Expr} {op : Operator} {l : Nat}
    (he : e = .binary left op right l) :
    e.origin? line around =
      ((left.origin? line (e :: around)).or (right.origin? line (e :: around))).or
        ([⟨e, around⟩].find? fun visit => visit.node.originates line) := by
  subst he
  rw [Expr.origin?, Expr.visits, List.find?_append, List.find?_append]
  rfl

/-- A node that fails of itself comes after nodes that do not fail. -/
theorem origin?_self (h : e.originates line = true) : e.origin? line around = some ⟨e, around⟩ := by
  have hlast : [(⟨e, around⟩ : Visit)].find? (fun visit => visit.node.originates line) =
      some ⟨e, around⟩ := List.find?_cons_of_pos h
  obtain ⟨_, hall⟩ := Bool.and_eq_true_iff.mp h
  have hquiet : ∀ operand ∈ e.operands, operand.origin? line (e :: around) = none := by
    intro operand ho
    have hok : operand.fails line = false := by simpa using List.all_eq_true.mp hall operand ho
    obtain ⟨v, hv⟩ := fails_eq_false.mp hok
    exact origin?_eq_none hv
  cases e with
  | declare name isMutable typeName initial l =>
    rw [origin?_declare rfl, hquiet initial (by simp [Expr.operands]), hlast]
    rfl
  | binary left op right l =>
    rw [origin?_binary rfl, hquiet left (by simp [Expr.operands]),
      hquiet right (by simp [Expr.operands]), hlast]
    rfl
  | _ => exact hlast

theorem ownCause_literal {value : Literal} {l : Nat} (h : value.value? = none) :
    OwnCause line (.literal value l) .unknownPrimary := by
  cases value with
  | bool b => exact .bool
  | char c => exact .char
  | integer n => cases h
  | float x => cases h
  | string s => cases h

theorem OwnCause.eval_eq (h : OwnCause line e cause) :
    e.eval line = .error (.raised cause line) := by
  cases h with
  | binary hl hr hb =>
    rw [Expr.eval, hl]
    simp only [hr, hb]
    rfl
  | _ => rfl

theorem OwnCause.originates (h : OwnCause line e cause) : e.originates line = true := by
  have hself : e.fails line = true := fails_eq_true.mpr ⟨_, h.eval_eq⟩
  rw [Expr.originates, hself]
  cases h with
  | binary hl hr _ =>
    simp [Expr.operands, fails_eq_false.mpr ⟨_, hl⟩, fails_eq_false.mpr ⟨_, hr⟩]
  | _ => rfl

/-- The first node that fails of itself in an expression, its cause, and the error that comes out
through a number of operations. -/
def Emerges (line : Nat) (around : List Expr) (e : Expr) (error : TypeError) : Prop :=
  ∃ visit cause n, e.origin? line around = some visit ∧ OwnCause line visit.node cause ∧
    visit.operations = around.countP Expr.isOperation + n ∧
    error = .nested line (.raised cause line) n

theorem OwnCause.emerges (h : OwnCause line e cause) :
    Emerges line around e (.raised cause line) :=
  ⟨⟨e, around⟩, cause, 0, origin?_self h.originates, h, rfl, rfl⟩

/-- An operation adds one error to that of an operand, if it fails where the operand does. -/
theorem Emerges.operand {part : Expr} (hop : e.isOperation = true)
    (hfirst : ∀ visit, part.origin? line (e :: around) = some visit →
      e.origin? line around = some visit)
    (h : Emerges line (e :: around) part error) : Emerges line around e (.operand error line) := by
  obtain ⟨visit, cause, n, hv, hown, hn, rfl⟩ := h
  refine ⟨visit, cause, n + 1, hfirst visit hv, hown, ?_, rfl⟩
  rw [hn, List.countP_cons_of_pos hop]
  omega

/-- An error emerges from the first node that fails of itself. -/
theorem RaisedAt.emerges (h : RaisedAt line e node error) (around : List Expr) :
    Emerges line around e error := by
  induction h generalizing around with
  | literal hv => exact (ownCause_literal hv).emerges
  | reference => exact OwnCause.reference.emerges
  | not => exact OwnCause.not.emerges
  | apply hl hr hb => exact (OwnCause.binary hl hr hb).emerges
  | @declare name isMutable typeName initial _ l _ _ ih =>
    -- A declaration hands on the error of its initial value as it is.
    obtain ⟨visit, cause, n, hv, hown, hn, rfl⟩ :=
      ih (.declare name isMutable typeName initial l :: around)
    refine ⟨visit, cause, n, ?_, hown, hn, rfl⟩
    rw [origin?_declare rfl, hv]
    rfl
  | left _ ih =>
    refine (ih (_ :: around)).operand rfl ?_
    intro visit hv
    rw [origin?_binary rfl, hv]
    rfl
  | right hl _ ih =>
    refine (ih (_ :: around)).operand rfl ?_
    intro visit hv
    rw [origin?_binary rfl, origin?_eq_none hl, hv]
    rfl

theorem nested_lines : ∀ x ∈ TypeError.nested line (.raised cause line) n ::
    (TypeError.nested line (.raised cause line) n).causes, x.line = line := by
  induction n with
  | zero => simp [TypeError.nested, TypeError.causes, TypeError.line]
  | succ n ih => exact List.forall_mem_cons.mpr ⟨rfl, ih⟩

/-- The error of an expression is that of the first node to fail of itself, inside one error for each
operation around the node, and all of them are at one line. -/
structure Traces (line : Nat) (e : Expr) (error : TypeError) (visit : Visit)
    (cause : TypeError.Cause) : Prop where
  first : e.origin? line [] = some visit
  own : OwnCause line visit.node cause
  alone : visit.node.eval line = .error (.raised cause line)
  chain : error = .nested line (.raised cause line) visit.operations
  lines : ∀ x ∈ error :: error.causes, x.line = line

theorem exists_traces (h : e.eval line = .error error) :
    ∃ visit cause, Traces line e error visit cause := by
  obtain ⟨node, hraised⟩ := eval_error_raisedAt h
  obtain ⟨visit, cause, n, hv, hown, hn, rfl⟩ := hraised.emerges []
  rw [List.countP_nil, Nat.zero_add] at hn
  subst hn
  exact ⟨visit, cause, hv, hown, hown.eval_eq, rfl, nested_lines⟩

/-- What is traced to the first node that fails of itself is the error of the expression. -/
theorem Traces.eval_eq (h : Traces line e error visit cause) : e.eval line = .error error := by
  cases he : e.eval line with
  | ok v =>
    have hfirst := h.first
    rw [origin?_eq_none he] at hfirst
    cases hfirst
  | error error' =>
    obtain ⟨visit', cause', h'⟩ := exists_traces he
    have hvisit : visit' = visit := Option.some.inj (h'.first.symm.trans h.first)
    subst hvisit
    have hsame := h'.alone.symm.trans h.alone
    cases hsame
    rw [h'.chain, h.chain]

/-- Statements that do not fail leave the result to those after them. -/
theorem interpret_after_ok (h : ∀ t ∈ program, t.fails t.line = false) (after : List Expr) :
    (s.interpret (program ++ e :: after)).1 = interpret (e :: after) := by
  rw [Evaluator.interpret_fresh]
  cases hrun : interpret program with
  | ok v => exact interpret_after hrun (List.cons_ne_nil e after)
  | error error =>
    obtain ⟨t, ht, ⟨_, _, _, _, he⟩, _⟩ := interpret_error_line hrun
    have hfails : t.fails t.line = true := fails_eq_true.mpr ⟨error, he⟩
    rw [h t ht] at hfails
    cases hfails

theorem exists_firstFailure (h : ∃ e ∈ program, e.fails e.line = true) :
    ∃ e error, FirstFailure program e error := by
  obtain ⟨e, hfind⟩ := Option.isSome_iff_exists.mp (List.find?_isSome.mpr h)
  obtain ⟨he, before, after, rfl, hbefore⟩ := List.find?_eq_some_iff_append.mp hfind
  obtain ⟨error, herror⟩ := fails_eq_true.mp he
  refine ⟨e, error, before, after, rfl, ?_, herror⟩
  intro t ht
  exact fails_eq_false.mp (by simpa using hbefore t ht)

/-- A program fails with the first of its statements that does. -/
theorem interpret_eq_error : (s.interpret program).1 = .error error ↔
    ∃ e, FirstFailure program e error := by
  constructor
  · intro h
    obtain ⟨before, e, after, hp, hb, he⟩ := continueWith_error h
    exact ⟨e, before, after, hp, hb, he⟩
  · rintro ⟨e, before, after, rfl, hb, he⟩
    rw [interpret_after_ok fun t ht => fails_eq_false.mpr (hb t ht)]
    simp [interpret, Evaluator.interpret, Evaluator.continueWith, he]

theorem interpret_fails_iff : (∃ error, (s.interpret program).1 = .error error) ↔
    ∃ e ∈ program, e.fails e.line = true := by
  constructor
  · rintro ⟨error, h⟩
    obtain ⟨e, before, after, rfl, _, he⟩ := interpret_eq_error.mp h
    exact ⟨e, by simp, fails_eq_true.mpr ⟨error, he⟩⟩
  · intro h
    obtain ⟨e, error, hfirst⟩ := exists_firstFailure h
    exact ⟨error, interpret_eq_error.mpr ⟨e, hfirst⟩⟩

/-- The value of the last statement, and zero where there is none. -/
def LastValue (program : List Expr) (v : Value) : Prop :=
  program = [] ∧ v = .integer 0 ∨ ∃ before e, program = before ++ [e] ∧ e.eval e.line = .ok v

theorem lastValue_nil : LastValue [] v ↔ v = .integer 0 := by
  simp [LastValue]

theorem lastValue_concat : LastValue (program ++ [e]) v ↔ e.eval e.line = .ok v := by
  constructor
  · rintro (⟨hnil, _⟩ | ⟨before, t, hsplit, hv⟩)
    · simp at hnil
    · obtain ⟨_, hlast⟩ := List.append_inj' hsplit rfl
      cases hlast
      exact hv
  · intro hv
    exact Or.inr ⟨program, e, rfl, hv⟩

/-- A program without failures is worth what its last statement is. -/
theorem interpret_lastValue (h : ∀ e ∈ program, e.fails e.line = false) :
    (s.interpret program).1 = .ok v ↔ LastValue program v := by
  rcases List.eq_nil_or_concat' program with rfl | ⟨before, e, rfl⟩
  · rw [lastValue_nil]
    exact ⟨fun hv => (Except.ok.inj hv).symm, fun hv => congrArg Except.ok hv.symm⟩
  · rw [lastValue_concat, interpret_after_ok fun t ht => h t (List.mem_append_left _ ht)]
    cases he : e.eval e.line <;>
      simp [interpret, Evaluator.interpret, Evaluator.continueWith, he]

theorem interpret_eq_ok : (s.interpret program).1 = .ok v ↔
    (∀ e ∈ program, e.fails e.line = false) ∧ LastValue program v := by
  constructor
  · intro hv
    have hnone : ∀ e ∈ program, e.fails e.line = false := by
      intro e he
      by_contra hfails
      obtain ⟨error, herror⟩ := interpret_fails_iff.mpr ⟨e, he, by simpa using hfails⟩
      rw [hv] at herror
      cases herror
    exact ⟨hnone, (interpret_lastValue hnone).mp hv⟩
  · rintro ⟨hnone, hlast⟩
    exact (interpret_lastValue hnone).mpr hlast

/-- How evaluations fail, and what they are worth otherwise. The error of an expression at any line
is traced to the first node that fails of itself, and the error of a program is that of its first
failing statement at the statement's line. -/
theorem failure_traced (s : Evaluator) :
    (∀ e error, s.eval e = .error error ↔
      ∃ visit cause, Traces s.line e error visit cause) ∧
      ∀ program : List Expr,
        ((∃ error, (s.interpret program).1 = .error error) ↔
          ∃ e ∈ program, e.fails e.line = true) ∧
        (∀ error, (s.interpret program).1 = .error error ↔
          ∃ e visit cause, FirstFailure program e error ∧ Traces e.line e error visit cause) ∧
        ∀ v, (s.interpret program).1 = .ok v ↔
          (∀ e ∈ program, e.fails e.line = false) ∧ LastValue program v := by
  refine ⟨?_, ?_⟩
  · intro e error
    exact ⟨exists_traces, fun ⟨_, _, h⟩ => h.eval_eq⟩
  · intro program
    refine ⟨interpret_fails_iff, fun error => ⟨?_, ?_⟩, fun v => interpret_eq_ok⟩
    · intro h
      obtain ⟨e, hfirst⟩ := interpret_eq_error.mp h
      have ⟨_, _, _, _, he⟩ := hfirst
      obtain ⟨visit, cause, htraces⟩ := exists_traces he
      exact ⟨e, visit, cause, hfirst, htraces⟩
    · rintro ⟨e, _, _, hfirst, _⟩
      exact interpret_eq_error.mpr ⟨e, hfirst⟩

def textProduct : Expr :=
  .binary (.literal (.string "a") 1) .mul (.literal (.integer 2) 1) 1

/-- The product fails inside a sum, inside a declaration, inside a difference, of which the right
side would fail as well. -/
def lopsided : Expr :=
  .binary
    (.declare "x" false none (.binary (.literal (.integer 1) 1) .add textProduct 1) 1)
    .sub (.not (.reference "y" 3) 3) 2

theorem failure_traced_lopsided :
    (∃ visit, visit.node = textProduct ∧ visit.operations = 2 ∧
      Traces 7 lopsided (.operand (.operand (.raised .expectedNumeric 7) 7) 7) visit
        .expectedNumeric) ∧
      (∃ e visit cause error,
        FirstFailure [.literal (.integer 1) 1, lopsided, .reference "z" 4] e error ∧
          Traces e.line e error visit cause) ∧
      Expr.fails 5 (.literal (.string "b") 5) = false ∧
      LastValue [.literal (.integer 1) 1, .literal (.string "b") 5] (.string "b") := by
  have heval : (⟨7⟩ : Evaluator).eval lopsided =
      .error (.operand (.operand (.raised .expectedNumeric 7) 7) 7) := rfl
  have hfails : (Evaluator.start.interpret
      [.literal (.integer 1) 1, lopsided, .reference "z" 4]).1 =
      .error (.operand (.operand (.raised .expectedNumeric 2) 2) 2) := rfl
  have hok : (Evaluator.start.interpret
      [.literal (.integer 1) 1, .literal (.string "b") 5]).1 = .ok (.string "b") := rfl
  obtain ⟨hsingle, _⟩ := failure_traced ⟨7⟩
  obtain ⟨_, hprogram⟩ := failure_traced Evaluator.start
  obtain ⟨visit, cause, htraces⟩ := (hsingle _ _).mp heval
  cases htraces.first
  cases htraces.alone
  obtain ⟨_, hfirst, _⟩ := hprogram [.literal (.integer 1) 1, lopsided, .reference "z" 4]
  obtain ⟨e, visit, cause, he, hline⟩ := (hfirst _).mp hfails
  obtain ⟨_, _, hworth⟩ := hprogram [.literal (.integer 1) 1, .literal (.string "b") 5]
  obtain ⟨hnone, hlast⟩ := (hworth _).mp hok
  exact ⟨⟨_, rfl, rfl, htraces⟩, ⟨e, visit, cause, _, he, hline⟩,
    hnone (.literal (.string "b") 5) (by simp), hlast⟩

end Scriptlet
