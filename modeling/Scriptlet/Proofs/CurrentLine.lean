import Scriptlet.Proofs.Alike

/-!
What an evaluator keeps from one request to the next is a line. It shows in the errors of single
expressions and in nothing else: a program is evaluated as if it were the first.
-/

namespace Scriptlet

variable {R : Nat → Nat → Prop}

theorem Expr.Alike.refl (h : ∀ n, R n n) (e : Expr) : Expr.Alike R e e := by
  induction e with
  | literal value line => exact .literal (h line)
  | reference name line => exact .reference (h line)
  | declare name isMutable typeName initial line ih => exact .declare ih (h line)
  | not operand line ih => exact .not ih (h line)
  | binary left op right line ihl ihr => exact .binary ihl ihr (h line)

namespace Evaluator

/-- The last statement of a program whose evaluation starts: those before it have values, and it
fails or is the last of all. -/
def LastStarted (program : List Expr) (e : Expr) : Prop :=
  ∃ pre post, program = pre ++ e :: post ∧ (∀ s ∈ pre, ∃ v, s.eval s.line = .ok v) ∧
    (post = [] ∨ ∃ error, e.eval e.line = .error error)

/-- Requests that start no statement. -/
def Idle (requests : List Request) : Prop :=
  ∀ program, .program program ∈ requests → program = []

/-- The line after some requests: that of the last statement started by the last program that was
not empty, or one without such a program. -/
inductive Kept : List Request → Nat → Prop where
  | initial {requests : List Request} : Idle requests → Kept requests 1
  | started {before after : List Request} {program : List Expr} {e : Expr} :
      LastStarted program e → Idle after → Kept (before ++ .program program :: after) e.line

variable {s : Evaluator} {e : Expr} {program : List Expr} {last : Value} {line : Nat}
  {requests before after : List Request}

/-- Where the first statement has a value and is not the last, it is one of the others. -/
theorem exists_lastStarted (h : program ≠ []) : ∃ e, LastStarted program e := by
  induction program with
  | nil => exact (h rfl).elim
  | cons first rest ih =>
    cases hv : first.eval first.line with
    | error error => exact ⟨first, [], rest, rfl, by simp, Or.inr ⟨error, hv⟩⟩
    | ok v =>
      by_cases hr : rest = []
      · exact ⟨first, [], rest, rfl, by simp, Or.inl hr⟩
      · obtain ⟨e, pre, post, rfl, hpre, hlast⟩ := ih hr
        refine ⟨e, first :: pre, post, rfl, ?_, hlast⟩
        intro t ht
        rcases List.mem_cons.mp ht with rfl | ht
        · exact ⟨v, hv⟩
        · exact hpre t ht

/-- A program leaves the line of the statement at which it has stopped. -/
theorem continueWith_line (h : LastStarted program e) :
    (continueWith last program s).2.line = e.line := by
  obtain ⟨pre, post, rfl, hpre, hlast⟩ := h
  induction pre generalizing last s with
  | nil =>
    simp only [List.nil_append, continueWith]
    cases hv : e.eval e.line with
    | error error => rfl
    | ok v =>
      rcases hlast with rfl | ⟨error, he⟩
      · rfl
      · rw [hv] at he
        cases he
  | cons first pre ih =>
    obtain ⟨v, hv⟩ := hpre first (by simp)
    simp only [List.cons_append, continueWith, hv]
    exact ih fun t ht => hpre t (by simp [ht])

/-- The line that is left does not show in the value of a program. -/
theorem interpret_fresh (s : Evaluator) (program : List Expr) :
    (s.interpret program).1 = Scriptlet.interpret program := by
  cases program <;> rfl

theorem calls_append : (s.calls (before ++ after)).2 = ((s.calls before).2.calls after).2 := by
  induction before generalizing s with
  | nil => rfl
  | cons request before ih => exact ih

/-- The answer to a request is that of an evaluator which the requests before it have left. -/
theorem calls_answer (s : Evaluator) (before after : List Request) (request : Request) :
    (s.calls (before ++ request :: after)).1[before.length]? =
      some ((s.calls before).2.call request).1 := by
  induction before generalizing s with
  | nil => rfl
  | cons first before ih => exact ih (s.call first).2

theorem calls_idle (h : Idle requests) : (s.calls requests).2 = s := by
  induction requests generalizing s with
  | nil => rfl
  | cons request requests ih =>
    have hcall : (s.call request).2 = s := by
      cases request with
      | program statements =>
        rw [h statements (by simp)]
        rfl
      | single e => rfl
    have hrest : Idle requests := fun p hp => h p (by simp [hp])
    simp only [calls, hcall]
    exact ih hrest

theorem line_of_kept (h : Kept requests line) : (start.calls requests).2.line = line := by
  cases h with
  | initial hi =>
    rw [calls_idle hi]
    rfl
  | started hs hi =>
    rw [calls_append]
    simp only [calls, call, interpret]
    rw [calls_idle hi, continueWith_line hs]

theorem idle_append : Idle (before ++ after) ↔ Idle before ∧ Idle after := by
  simp only [Idle, List.mem_append]
  constructor
  · exact fun h => ⟨fun p hp => h p (Or.inl hp), fun p hp => h p (Or.inr hp)⟩
  · rintro ⟨hb, ha⟩ p (hp | hp)
    · exact hb p hp
    · exact ha p hp

theorem kept_idle (h : Kept before line) (hi : Idle after) : Kept (before ++ after) line := by
  cases h with
  | initial hb => exact .initial (idle_append.mpr ⟨hb, hi⟩)
  | started hs ha =>
    rw [List.append_assoc]
    exact .started hs (idle_append.mpr ⟨ha, hi⟩)

/-- The last request either starts a statement or leaves the line as it was. -/
theorem exists_kept (requests : List Request) : ∃ line, Kept requests line := by
  induction requests using List.reverseRecOn with
  | nil => exact ⟨1, .initial (by simp [Idle])⟩
  | append_singleton requests request ih =>
    obtain ⟨line, hk⟩ := ih
    by_cases hi : Idle [request]
    · exact ⟨line, kept_idle hk hi⟩
    · cases request with
      | single e => exact (hi (by simp [Idle])).elim
      | program statements =>
        have hne : statements ≠ [] := by
          intro he
          exact hi (by simp [Idle, he])
        obtain ⟨e, he⟩ := exists_lastStarted hne
        exact ⟨e.line, .started he (by simp [Idle])⟩

theorem kept_iff : Kept requests line ↔ line = (start.calls requests).2.line := by
  constructor
  · exact fun h => (line_of_kept h).symm
  · rintro rfl
    obtain ⟨line, hk⟩ := exists_kept requests
    rwa [line_of_kept hk]

end Evaluator

/-- Whatever has been asked of an evaluator before, it answers a program as at the start, and a
single expression at the one line that is kept. At two lines an expression has the same value, or
fails with the same chain of errors, all of them at the one line or all at the other. -/
theorem evaluator_keeps_line (before after : List Evaluator.Request) :
    (∀ program, (Evaluator.start.calls (before ++ .program program :: after)).1[before.length]? =
        some (interpret program)) ∧
      (∃ line, (∀ l, Evaluator.Kept before l ↔ l = line) ∧
        ∀ e, (Evaluator.start.calls (before ++ .single e :: after)).1[before.length]? =
          some (Evaluator.eval ⟨line⟩ e)) ∧
      ∀ (e : Expr) (m n : Nat), Matches (TypeError.Alike fun i j => i = m ∧ j = n) Eq
        (Evaluator.eval ⟨m⟩ e) (Evaluator.eval ⟨n⟩ e) := by
  refine ⟨?_, ⟨_, fun _ => Evaluator.kept_iff, ?_⟩, ?_⟩
  · intro program
    rw [Evaluator.calls_answer]
    exact congrArg some (Evaluator.interpret_fresh _ program)
  · intro e
    exact Evaluator.calls_answer _ _ _ _
  · intro e m n
    exact eval_alike (Expr.Alike.refl (R := Eq) (fun _ => rfl) e) ⟨rfl, rfl⟩

example : (Evaluator.start.calls
      [.program
        [.literal (.integer 4) 2, .not (.literal (.integer 1) 7) 6, .literal (.integer 5) 8],
        .program [], .single (.reference "x" 9)]).1 =
    [.error (.raised .unknownExpression 6), .ok (.integer 0),
      .error (.raised .unknownExpression 6)] := by
  decide +kernel

end Scriptlet
