import Scriptlet.Proofs.Alike
import Scriptlet.Proofs.Cursor

/-!
The end of a list of tokens. A list may just stop, or have a token of the end, with anything after
it: whatever rules are called for, in whatever order and after whatever refusals, the answers and
the cursor are the same.
-/

namespace Scriptlet

namespace Reader

open Grammar

variable {α : Type} {r : Reader α} {us vs zs zs' rest : List Token}

/-- No token of the end is read, so all that is read as the end is left over. -/
theorem rest_of_bounded (hb : Bounded r) (us : List Token) (hz : peek zs = .finish) :
    ∃ vs ws, us = vs ++ ws ∧ (r.run (us ++ zs)).rest = ws ++ zs := by
  obtain ⟨vs, hvs, hv⟩ := hb (us ++ zs)
  rcases List.append_eq_append_iff.mp hvs with ⟨xs, hxs, hzs⟩ | ⟨ws, hus, hrest⟩
  · cases xs with
    | nil => exact ⟨us, [], by simp, hzs.symm⟩
    | cons t xs =>
      rw [hzs] at hz
      exact (hv t (by simp [hxs]) hz).elim
  · exact ⟨vs, ws, hus, hrest⟩

theorem append_of_length_le (h : us ++ zs = vs ++ rest) (hlen : zs.length ≤ rest.length) :
    ∃ ws, us = vs ++ ws ∧ rest = ws ++ zs := by
  rcases List.append_eq_append_iff.mp h with ⟨xs, hvs, hzs⟩ | hw
  · have hnil : xs.length = 0 := by
      have := congrArg List.length hzs
      rw [List.length_append] at this
      omega
    rw [List.length_eq_zero_iff.mp hnil] at hvs hzs
    exact ⟨[], by simpa using hvs.symm, hzs.symm⟩
  · exact hw

/-- A reader answers the same and stops at the same token, whatever is read as the end. -/
theorem run_ended (hl : Local r) (hb : Bounded r) (us : List Token) (hz : peek zs = .finish)
    (hz' : peek zs' = .finish) :
    ∃ ws, (r.run (us ++ zs)).rest = ws ++ zs ∧ (r.run (us ++ zs')).rest = ws ++ zs' ∧
      Matches (fun x y => x.cause = y.cause) Eq (r.run (us ++ zs)).outcome
        (r.run (us ++ zs')).outcome := by
  obtain ⟨vs, ws, hus, hrest⟩ := rest_of_bounded hb us hz
  have hends : ∀ xs, SameNext (xs ++ zs) (xs ++ zs') :=
    fun xs => sameNext_append xs (Or.inr ⟨hz, hz'⟩)
  cases ho : (r.run (us ++ zs)).outcome with
  | ok a =>
    obtain ⟨xs, hxs, hx⟩ := (hl (us ++ zs)).ok a ho
    obtain ⟨ys, rfl, hys⟩ := append_of_length_le hxs (by simp [hrest])
    have hrun := hx (ys ++ zs') (hys ▸ hends ys)
    rw [← List.append_assoc] at hrun
    refine ⟨ys, hys, by rw [hrun], ?_⟩
    rw [hrun]
    exact .ok rfl
  | error x =>
    obtain ⟨xs, n, hxs, hn, hx⟩ := (hl (us ++ zs)).error x ho
    have hlen : zs.length ≤ x.here.length := by
      have := congrArg List.length (hrest.symm.trans hn)
      simp only [List.length_append, List.length_drop] at this
      omega
    obtain ⟨ys, rfl, hys⟩ := append_of_length_le hxs hlen
    have hrun := hx (ys ++ zs') (hys ▸ hends ys)
    rw [← List.append_assoc] at hrun
    -- Both runs drop as many of the tokens before the end, none where the end is reached.
    obtain ⟨vs', ws', hus', hrest'⟩ := rest_of_bounded hb (xs ++ ys) hz'
    have hsame : ws.length = ws'.length := by
      have h := congrArg List.length (hrest.symm.trans hn)
      have h' := congrArg List.length (hrest'.symm.trans (by rw [hrun]))
      simp only [hys, List.length_append, List.length_drop] at h h'
      omega
    obtain rfl : ws = ws' := (List.append_inj' (hus.symm.trans hus') hsame).2
    refine ⟨ws, hrest, hrest', ?_⟩
    rw [hrun]
    exact .error rfl

end Reader

namespace Rule

open Reader

theorem looksAhead (rule : Rule) : Local rule.reader := by
  cases rule with
  | program => exact local_bind local_program fun _ => local_pure
  | statement => exact local_bind local_statement fun _ => local_pure
  | expression => exact local_bind local_expression fun _ => local_pure
  | equality => exact local_bind local_expression fun _ => local_pure
  | comparison => exact local_bind local_comparison fun _ => local_pure
  | term => exact local_bind local_term fun _ => local_pure
  | factor => exact local_bind local_factor fun _ => local_pure
  | unary => exact local_bind local_unary fun _ => local_pure
  | primary => exact local_bind local_primary fun _ => local_pure

end Rule

namespace Session

variable {s s' : Session} {ts zs zs' : List Token}

/-- Two sessions answer several calls with the same trees or for the same causes, and after each
call they stand at the same token. -/
structure InStep (s s' : Session) (rules : List Rule) : Prop where
  answers : List.Forall₂ (Matches (fun e e' => e.cause = e'.cause) Eq) (s.calls rules).1
    (s'.calls rules).1
  cursors : ∀ n, (s.calls (rules.take n)).2.cursor = (s'.calls (rules.take n)).2.cursor

/-- Two sessions at the same token of one list, with what is read as the end after it. -/
structure Shares (ts zs zs' : List Token) (s s' : Session) : Prop where
  tokens : s.tokens = ts ++ zs
  tokens' : s'.tokens = ts ++ zs'
  cursor : s.cursor = s'.cursor
  bound : s.cursor ≤ ts.length

theorem shares_start : Shares ts zs zs' (start (ts ++ zs)) (start (ts ++ zs')) where
  tokens := rfl
  tokens' := rfl
  cursor := rfl
  bound := Nat.zero_le _

theorem call_inStep (h : Shares ts zs zs' s s') (hz : Reader.peek zs = .finish)
    (hz' : Reader.peek zs' = .finish) (rule : Rule) :
    Matches (fun e e' => e.cause = e'.cause) Eq (s.call rule).1 (s'.call rule).1 ∧
      Shares ts zs zs' (s.call rule).2 (s'.call rule).2 := by
  have hdrop : s.tokens.drop s.cursor = ts.drop s.cursor ++ zs := by
    rw [h.tokens, List.drop_append_of_le_length h.bound]
  have hdrop' : s'.tokens.drop s'.cursor = ts.drop s.cursor ++ zs' := by
    rw [h.tokens', ← h.cursor, List.drop_append_of_le_length h.bound]
  obtain ⟨ws, hrest, hrest', hm⟩ :=
    Reader.run_ended rule.looksAhead rule.bounded (ts.drop s.cursor) hz hz'
  have hcursor : (s.call rule).2.cursor = ts.length - ws.length := by
    rw [cursor_call, drop_cursor, hdrop, hrest, h.tokens, List.length_append, List.length_append]
    omega
  have hcursor' : (s'.call rule).2.cursor = ts.length - ws.length := by
    rw [cursor_call, drop_cursor, hdrop', hrest', h.tokens', List.length_append, List.length_append]
    omega
  refine ⟨?_, h.tokens, h.tokens', hcursor.trans hcursor'.symm, by omega⟩
  simp only [call, hdrop, hdrop']
  generalize (rule.reader.run (ts.drop s.cursor ++ zs)).outcome = x at hm
  generalize (rule.reader.run (ts.drop s.cursor ++ zs')).outcome = y at hm
  cases hm with
  | ok ha => exact .ok ha
  | error hx =>
    refine .error ?_
    simpa only [Refusal.locate, errorAt_cause] using hx

theorem calls_inStep (h : Shares ts zs zs' s s') (hz : Reader.peek zs = .finish)
    (hz' : Reader.peek zs' = .finish) (rules : List Rule) : InStep s s' rules := by
  induction rules generalizing s s' with
  | nil => exact ⟨.nil, fun _ => by simpa [calls] using h.cursor⟩
  | cons rule rules ih =>
    obtain ⟨hanswer, hshares⟩ := call_inStep h hz hz' rule
    have hrest := ih hshares
    refine ⟨.cons hanswer hrest.answers, ?_⟩
    intro n
    cases n with
    | zero => exact h.cursor
    | succ n => exact hrest.cursors n

end Session

/-- A list that stops, the list with a token of the end, and the list with further tokens after that
one, are all read in step, call by call and beyond every refusal. -/
theorem session_ended (ts junk : List Token) (z : Token) (rules : List Rule)
    (hz : z.kind = .finish) :
    Session.InStep (.start ts) (.start (ts ++ [z])) rules ∧
      Session.InStep (.start ts) (.start (ts ++ [z] ++ junk)) rules ∧
      Session.InStep (.start (ts ++ [z])) (.start (ts ++ [z] ++ junk)) rules := by
  have hstep : ∀ zs zs', Reader.peek zs = .finish → Reader.peek zs' = .finish →
      Session.InStep (.start (ts ++ zs)) (.start (ts ++ zs')) rules :=
    fun _ _ h h' => Session.calls_inStep Session.shares_start h h' rules
  have hstop := hstep [] [z] rfl hz
  have hjunk := hstep [] (z :: junk) rfl hz
  rw [List.append_nil] at hstop hjunk
  rw [List.append_assoc, List.singleton_append]
  exact ⟨hstop, hjunk, hstep [z] (z :: junk) hz hz⟩

/-- A quotient by zero, and a difference that is broken off. -/
def brokenOff : List Token :=
  [⟨.integer, "1", 1⟩, ⟨.slash, "/", 1⟩, ⟨.float, "0.0", 2⟩, ⟨.semicolon, ";", 2⟩,
    ⟨.integer, "2", 3⟩, ⟨.minus, "-", 3⟩]

/-- The difference goes on after the end, but not for a session. -/
theorem session_ended_brokenOff :
    Session.InStep (.start brokenOff)
        (.start (brokenOff ++ [⟨.finish, "?", 9⟩] ++ [⟨.integer, "5", 9⟩]))
        [.term, .program, .unary] ∧
      ((Session.start (brokenOff ++ [⟨.finish, "?", 9⟩] ++ [⟨.integer, "5", 9⟩])).calls
        [.term, .program, .unary]).2.cursor = 6 := by
  have h := (session_ended brokenOff [⟨.integer, "5", 9⟩] ⟨.finish, "?", 9⟩
    [.term, .program, .unary] rfl).2.1
  have hcursor : ((Session.start brokenOff).calls [.term, .program, .unary]).2.cursor = 6 := by
    decide +kernel
  exact ⟨h, (h.cursors 3).symm.trans hcursor⟩

end Scriptlet
