import Scriptlet.Proofs.Grouping
import Scriptlet.Proofs.Refusal

/-!
The cursor of a session. Whatever rules are called for, in whatever order and after whatever
refusals, the cursor moves forward only, stops before the first token of the end, and a refusal
stands where the cursor does, or one token before it where that token is a zero that was divided by.
-/

namespace Scriptlet

open Grammar

/-- A number equal to zero. -/
def Token.ReadsZero (t : Token) : Prop :=
  t.kind = .integer ∧ Numeral.int64? t.lexeme = some 0 ∨
    t.kind = .float ∧ ∃ x, Binary64.ofText? t.lexeme = some x ∧ x.Null

theorem readsZero_of_primary {t : Token} {e : Expr} (hp : Primary t e) (hz : ZeroLiteral e) :
    t.ReadsZero := by
  cases hz with
  | integer =>
    cases hp with
    | integer hk hn => exact Or.inl ⟨hk, hn⟩
  | float hx =>
    cases hp with
    | float hk hf => exact Or.inr ⟨hk, _, hf, hx⟩

namespace Reader

variable {α β : Type} {r : Reader α} {P Q : Phrase α} {ts rest : List Token} {x : Refusal}
  {e left : Expr} {es : List Expr} {tier : Tier} {next : Reader Expr} {Next : Phrase Expr}

/-- No token of the end is passed, by success or refusal. -/
def Bounded (r : Reader α) : Prop :=
  ∀ ts, ∃ us, ts = us ++ (r.run ts).rest ∧ Endless us

/-- A reader that has refused a token refuses it again, from where it has stopped. -/
def Stubborn (r : Reader α) : Prop :=
  ∀ ts x, (r.run ts).outcome = .error x → x.cause ≠ .divisionByZero →
    r.run (r.run ts).rest = ⟨.error x, (r.run ts).rest⟩

/-- What has been read is a phrase or begins one, and no phrase holds a token of the end. -/
theorem bounded_of_reads (hs : Sound r P) (hv : Viable r Q) (hr : Placed r)
    (hp : ∀ us a, P us a → Endless us) (hq : ∀ us a, Q us a → Endless us) : Bounded r := by
  intro ts
  cases ho : (r.run ts).outcome with
  | ok a =>
    obtain ⟨us, hus, ha⟩ := hs ts a ho
    exact ⟨us, hus, hp us a ha⟩
  | error x =>
    obtain ⟨us, vs, a, hus, ha⟩ := hv ts x ho
    have hu := (endless_append.mp (hq _ a ha)).1
    rcases hr ts x ho with ⟨_, hx⟩ | ⟨_, _, _, zero, e, _, hx, _, hz, _⟩
    · exact ⟨us, hx ▸ hus, hu⟩
    · refine ⟨us ++ [zero], ?_, endless_append.mpr ⟨hu, ?_⟩⟩
      · rw [List.append_assoc, List.singleton_append, ← hx]
        exact hus
      · exact endless_cons.mpr ⟨endless_primary hz, endless_nil⟩

theorem token_error {missing : SyntaxError.Cause} {g : Token → Except SyntaxError.Cause α}
    (h : ((token missing g).run ts).outcome = .error x) :
    (token missing g).run ts = ⟨.error x, ts⟩ := by
  cases ts with
  | nil =>
    cases h
    rfl
  | cons t ts =>
    cases ht : g t with
    | ok a => simp [token, ht] at h
    | error c => simp_all [token]

theorem stubborn_primary : Stubborn primary := by
  intro ts x hx _
  have hrun : primary.run ts = ⟨.error x, ts⟩ := token_error hx
  rw [hrun, hrun]

theorem stubborn_unary : Stubborn unary := by
  intro ts
  induction ts with
  | nil => exact stubborn_primary []
  | cons t ts ih =>
    intro x hx hc
    by_cases ht : t.kind = .bang
    · simp only [unary, unaryRun_bang ht] at hx ih ⊢
      exact ih x (map_eq_error hx) hc
    · have hk : peek (t :: ts) ≠ .bang := ht
      simp only [unary, unaryRun_primary hk] at hx ⊢
      have hrun : primary.run (t :: ts) = ⟨.error x, t :: ts⟩ := token_error hx
      rw [hrun, unaryRun_primary hk, hrun]

/-- Only an operand is refused in a chain, a division by zero apart. -/
theorem extend_refused (h : (extend tier next left ts).outcome = .error x)
    (hc : x.cause ≠ .divisionByZero) :
    ∃ us, next.run us = ⟨.error x, (extend tier next left ts).rest⟩ := by
  fun_induction extend tier next left ts with
  | case1 left => cases h
  | case2 left t ts hop => cases h
  | case3 left t ts op hop right y hy =>
    cases h
    exact ⟨ts, by rw [← hy]⟩
  | case4 left t ts op hop right e he hz =>
    cases h
    exact (hc rfl).elim
  | case5 left t ts op hop right e he hz ih => exact ih h

theorem run_bind_of_refused {f : α → Reader β} (h : r.run ts = ⟨.error x, rest⟩) :
    (r >>= f).run ts = ⟨.error x, rest⟩ := by
  rw [run_bind, h, Step.andThen]

theorem stubborn_chain (hn : Stubborn next) : Stubborn (chain tier next) := by
  intro ts x hx hc
  obtain ⟨us, hus⟩ : ∃ us, next.run us = ⟨.error x, ((chain tier next).run ts).rest⟩ := by
    rcases bind_error hx with hf | ⟨first, hf, hrun⟩
    · have hr : next.run ts = ⟨.error x, (next.run ts).rest⟩ := by rw [← hf]
      rw [chain, run_bind_of_refused hr]
      exact ⟨ts, hr⟩
    · rw [chain, hrun] at hx ⊢
      exact extend_refused hx hc
  have hagain := hn us x (by rw [hus]) hc
  rw [hus] at hagain
  exact run_bind_of_refused hagain

/-- What the rules for expressions have in common. -/
structure Operand (r : Reader Expr) (P : Phrase Expr) : Prop where
  sound : Sound r P
  viable : Viable r (NonZero P)
  inhabited : ∃ us e, NonZero P us e
  endless : ∀ us e, P us e → Endless us
  consumes : Consumes r
  placed : Placed r
  stubborn : Stubborn r

theorem operand_primary : Operand primary (Single Primary) where
  sound := sound_primary
  viable := viable_token ⟨⟨filler, rfl, primary_filler⟩, nonZero_filler.2⟩
  inhabited := ⟨_, _, ⟨filler, rfl, primary_filler⟩, nonZero_filler.2⟩
  endless := by
    rintro us e ⟨t, rfl, hp⟩
    exact endless_cons.mpr ⟨endless_primary hp, endless_nil⟩
  consumes := consumes_primary
  placed := placed_primary
  stubborn := stubborn_primary

theorem operand_unary : Operand unary Unary where
  sound := sound_unary
  viable := viable_unary
  inhabited := ⟨_, _, nonZero_filler⟩
  endless := fun _ _ => endless_unary
  consumes := consumes_unary
  placed := placed_unary
  stubborn := stubborn_unary

theorem operand_chain (h : Operand next Next) (hd : Joins tier .slash .div → ZeroAlone next) :
    Operand (chain tier next) (Chain tier Next) where
  sound := sound_chain h.sound
  viable := viable_chain h.sound h.viable h.inhabited
  inhabited := inhabited_chain h.inhabited
  endless := fun _ _ => chain_induct (p := fun us _ => Endless us) h.endless
    fun hu hj hv => endless_append.mpr ⟨hu, endless_cons.mpr ⟨joins_ne_finish hj, hv⟩⟩
  consumes := consumes_chain h.consumes
  placed := placed_chain h.placed hd
  stubborn := stubborn_chain h.stubborn

theorem operand_factor : Operand factor Factor :=
  operand_chain operand_unary fun _ => zeroAlone_unary

theorem operand_term : Operand term Term :=
  operand_chain operand_factor (zeroAlone_vacuous (by decide))

theorem operand_comparison : Operand comparison Comparison :=
  operand_chain operand_term (zeroAlone_vacuous (by decide))

theorem operand_equality : Operand equality Equality :=
  operand_chain operand_comparison (zeroAlone_vacuous (by decide))

theorem Operand.bounded {r : Reader Expr} {P : Phrase Expr} (h : Operand r P) : Bounded r :=
  bounded_of_reads h.sound h.viable h.placed h.endless fun us e hu => h.endless us e hu.1

theorem bounded_statement : Bounded statement := by
  intro ts
  simp only [statement]
  split
  · exact bounded_of_reads reads_declaration.sound reads_declaration.viable placed_declaration
      (fun _ _ => endless_declaration) (fun _ _ => endless_declaration) ts
  · exact operand_equality.bounded ts

/-- A program is read up to the end. -/
theorem program_ok (h : (program.run ts).outcome = .ok es) :
    ∃ us, ts = us ++ (program.run ts).rest ∧ Program us es ∧
      peek (program.run ts).rest = .finish := by
  obtain ⟨zs, hts, hz⟩ := Token.exists_body ts
  have hp := program_of_run h
  have hrun : program.run ts = ⟨.ok es, zs⟩ := by
    have hbody := run_of_program hp hz
    rwa [← hts] at hbody
  rw [hrun]
  exact ⟨_, hts, hp, hz⟩

theorem sound_program : Sound program Program := by
  intro ts es h
  obtain ⟨us, hus, hp, _⟩ := program_ok h
  exact ⟨us, hus, hp⟩

theorem bounded_program : Bounded program :=
  bounded_of_reads sound_program viable_program placed_program (fun _ _ => endless_program)
    fun _ _ => endless_program

theorem run_map {f : α → β} : (r >>= fun a => pure (f a)).run ts = (r.run ts).map f := by
  rw [run_bind, Step.andThen, Step.map]
  cases (r.run ts).outcome <;> rfl

theorem bounded_map {f : α → β} (h : Bounded r) : Bounded (r >>= fun a => pure (f a)) := by
  intro ts
  rw [run_map]
  exact h ts

theorem stubborn_map {f : α → β} (h : Stubborn r) : Stubborn (r >>= fun a => pure (f a)) := by
  intro ts x hx hc
  rw [run_map] at hx ⊢
  have hagain := h ts x (map_eq_error hx) hc
  rw [run_map]
  exact congrArg (Step.map f) hagain

end Reader

namespace Rule

open Reader

variable {rule : Rule}

/-- All rules but two are rules for expressions. -/
theorem cases (rule : Rule) : rule = .program ∨ rule = .statement ∨
    ∃ r P, Operand r P ∧ rule.reader = (r >>= fun e => pure (.single e)) := by
  cases rule with
  | program => exact Or.inl rfl
  | statement => exact Or.inr (Or.inl rfl)
  | expression => exact Or.inr (Or.inr ⟨_, _, operand_equality, rfl⟩)
  | equality => exact Or.inr (Or.inr ⟨_, _, operand_equality, rfl⟩)
  | comparison => exact Or.inr (Or.inr ⟨_, _, operand_comparison, rfl⟩)
  | term => exact Or.inr (Or.inr ⟨_, _, operand_term, rfl⟩)
  | factor => exact Or.inr (Or.inr ⟨_, _, operand_factor, rfl⟩)
  | unary => exact Or.inr (Or.inr ⟨_, _, operand_unary, rfl⟩)
  | primary => exact Or.inr (Or.inr ⟨_, _, operand_primary, rfl⟩)

theorem bounded (rule : Rule) : Bounded rule.reader := by
  rcases rule.cases with rfl | rfl | ⟨r, P, hr, he⟩
  · exact bounded_map bounded_program
  · exact bounded_map bounded_statement
  · rw [he]
    exact bounded_map hr.bounded

theorem placed (rule : Rule) : Placed rule.reader := by
  rcases rule.cases with rfl | rfl | ⟨r, P, hr, he⟩
  · exact placed_bind placed_program fun _ => placed_pure
  · exact placed_bind placed_statement fun _ => placed_pure
  · rw [he]
    exact placed_bind hr.placed fun _ => placed_pure

theorem consumes (h : rule ≠ .program) : Consumes rule.reader := by
  rcases rule.cases with rfl | rfl | ⟨r, P, hr, he⟩
  · exact (h rfl).elim
  · exact consumes_bind consumes_statement
  · rw [he]
    exact consumes_bind hr.consumes

theorem stubborn (hp : rule ≠ .program) (hs : rule ≠ .statement) : Stubborn rule.reader := by
  rcases rule.cases with rfl | rfl | ⟨r, P, hr, he⟩
  · exact (hp rfl).elim
  · exact (hs rfl).elim
  · rw [he]
    exact stubborn_map hr.stubborn

end Rule

namespace Session

variable {s : Session} {rule : Rule} {rules : List Rule} {a : Rule.Answer} {e : SyntaxError}
  {ts : List Token}

/-- The cursor is within the list and has passed no token of the end. -/
structure Valid (s : Session) : Prop where
  bound : s.cursor ≤ s.tokens.length
  endless : Endless (s.tokens.take s.cursor)

theorem valid_start (ts : List Token) : (start ts).Valid where
  bound := Nat.zero_le _
  endless := endless_nil

theorem cursor_call (s : Session) (rule : Rule) : (s.call rule).2.cursor =
    s.tokens.length - (s.tokens.drop (s.call rule).2.cursor).length := by
  rw [drop_cursor]
  rfl

/-- A call moves the cursor over what it has read. -/
theorem call_advance (h : s.Valid) (rule : Rule) :
    ∃ us, s.tokens.drop s.cursor = us ++ s.tokens.drop (s.call rule).2.cursor ∧ Endless us ∧
      (s.call rule).2.cursor = s.cursor + us.length := by
  obtain ⟨us, hus, hu⟩ := rule.bounded (s.tokens.drop s.cursor)
  rw [← drop_cursor] at hus
  refine ⟨us, hus, hu, ?_⟩
  have hlen := congrArg List.length hus
  have hcursor := cursor_call s rule
  have hbound := h.bound
  rw [List.length_append, List.length_drop] at hlen
  omega

theorem valid_call (h : s.Valid) (rule : Rule) : (s.call rule).2.Valid := by
  obtain ⟨us, hus, hu, hc⟩ := call_advance h rule
  constructor
  · rw [cursor_call]
    exact Nat.sub_le _ _
  · have htake : s.tokens.take (s.call rule).2.cursor = s.tokens.take s.cursor ++ us := by
      rw [hc, List.take_add, hus, List.take_left]
    exact htake ▸ endless_append.mpr ⟨h.endless, hu⟩

theorem valid_calls (h : s.Valid) (rules : List Rule) : (s.calls rules).2.Valid := by
  induction rules generalizing s with
  | nil => exact h
  | cons rule rules ih => exact ih (valid_call h rule)

theorem tokens_calls (s : Session) (rules : List Rule) : (s.calls rules).2.tokens = s.tokens := by
  induction rules generalizing s with
  | nil => rfl
  | cons rule rules ih => exact ih (s.call rule).2

theorem reader_of_call_error (h : (s.call rule).1 = .error e) :
    ∃ x, (rule.reader.run (s.tokens.drop s.cursor)).outcome = .error x ∧ x.locate s.tokens = e := by
  simp only [call] at h
  cases ho : (rule.reader.run (s.tokens.drop s.cursor)).outcome with
  | ok a => simp [ho, Except.mapError] at h
  | error x => exact ⟨x, rfl, by simpa [ho, Except.mapError] using h⟩

/-- What a call does to the cursor, and where its error is. -/
structure Steady (s : Session) (rule : Rule) (answer : Except SyntaxError Rule.Answer)
    (s' : Session) : Prop where
  tokens : s'.tokens = s.tokens
  forward : s.cursor ≤ s'.cursor
  bound : s'.cursor ≤ s.tokens.length
  endless : Endless (s.tokens.take s'.cursor)
  consumes : rule ≠ .program → ∀ a, answer = .ok a → s.cursor < s'.cursor
  finished : rule = .program → ∀ a, answer = .ok a →
    s'.cursor = s.tokens.length ∨ ∃ t, s.tokens[s'.cursor]? = some t ∧ t.kind = .finish
  atCursor : ∀ e, answer = .error e → e.cause ≠ .divisionByZero →
    e = Token.errorAt s.tokens s'.cursor e.cause
  atZero : ∀ e, answer = .error e → e.cause = .divisionByZero →
    2 ≤ s'.cursor ∧ e = Token.errorAt s.tokens (s'.cursor - 1) .divisionByZero ∧
      (∃ zero, s.tokens[s'.cursor - 1]? = some zero ∧ zero.ReadsZero) ∧
      ∃ slash, s.tokens[s'.cursor - 2]? = some slash ∧ slash.kind = .slash
  again : rule ≠ .program → rule ≠ .statement → ∀ e, answer = .error e →
    e.cause ≠ .divisionByZero → s'.call rule = (.error e, s')

theorem call_consumes (h : s.Valid) (hr : rule ≠ .program) (ha : (s.call rule).1 = .ok a) :
    s.cursor < (s.call rule).2.cursor := by
  have hlt := Rule.consumes hr _ a (reader_of_call_ok ha)
  obtain ⟨us, hus, _, hc⟩ := call_advance h rule
  rw [← drop_cursor, hus, List.length_append] at hlt
  omega

theorem call_finished (h : s.Valid) (ha : (s.call .program).1 = .ok a) :
    (s.call .program).2.cursor = s.tokens.length ∨
      ∃ t, s.tokens[(s.call .program).2.cursor]? = some t ∧ t.kind = .finish := by
  obtain ⟨es, hes, hrun⟩ := Reader.bind_ok (reader_of_call_ok ha)
  obtain ⟨_, _, _, hk⟩ := Reader.program_ok hes
  have hdrop := drop_cursor s .program
  rw [Rule.reader, hrun, Reader.run_pure] at hdrop
  rw [← hdrop] at hk
  cases hz : s.tokens.drop (s.call .program).2.cursor with
  | nil =>
    have hle := List.drop_eq_nil_iff.mp hz
    exact Or.inl (Nat.le_antisymm (valid_call h .program).bound hle)
  | cons t zs =>
    rw [hz] at hk
    refine Or.inr ⟨t, ?_, hk⟩
    rw [← List.head?_drop, hz]
    rfl

theorem call_atCursor (he : (s.call rule).1 = .error e) (hc : e.cause ≠ .divisionByZero) :
    e = Token.errorAt s.tokens (s.call rule).2.cursor e.cause := by
  obtain ⟨x, hx, rfl⟩ := reader_of_call_error he
  rw [Refusal.locate, errorAt_cause] at hc ⊢
  rcases rule.placed _ x hx with ⟨_, hh⟩ | ⟨hd, _⟩
  · rw [hh]
    rfl
  · exact (hc hd).elim

theorem call_atZero (he : (s.call rule).1 = .error e) (hc : e.cause = .divisionByZero) :
    2 ≤ (s.call rule).2.cursor ∧
      e = Token.errorAt s.tokens ((s.call rule).2.cursor - 1) .divisionByZero ∧
      (∃ zero, s.tokens[(s.call rule).2.cursor - 1]? = some zero ∧ zero.ReadsZero) ∧
      ∃ slash, s.tokens[(s.call rule).2.cursor - 2]? = some slash ∧ slash.kind = .slash := by
  obtain ⟨x, hx, rfl⟩ := reader_of_call_error he
  rw [Refusal.locate, errorAt_cause] at hc
  rcases rule.placed _ x hx with ⟨hn, _⟩ | ⟨_, us, slash, zero, value, hus, hh, hk, hp, hz⟩
  · exact (hn hc).elim
  · rw [← drop_cursor] at hh
    -- The slash and the zero are the last two tokens that the cursor has passed.
    have hts : s.tokens = s.tokens.take s.cursor ++ us ++
        slash :: zero :: s.tokens.drop (s.call rule).2.cursor := by
      rw [List.append_assoc, ← hh, ← hus, List.take_append_drop]
    have hcursor := cursor_call s rule
    have hlen := congrArg List.length hts
    have hhere := congrArg List.length hh
    generalize s.tokens.take s.cursor ++ us = pre at hts hlen
    generalize s.tokens.drop (s.call rule).2.cursor = rest at hts hlen hcursor hhere
    simp only [List.length_append, List.length_cons] at hlen hhere
    have hpassed : (s.call rule).2.cursor = pre.length + 2 := by omega
    have hindex : s.tokens.length - x.here.length = pre.length + 1 := by omega
    rw [hpassed, Refusal.locate, hc, hindex]
    refine ⟨by omega, rfl, ⟨zero, ?_, readsZero_of_primary hp hz⟩, slash, ?_, hk⟩
    · rw [hts]
      simp
    · rw [hts]
      simp

theorem call_again (hp : rule ≠ .program) (hs : rule ≠ .statement)
    (he : (s.call rule).1 = .error e) (hc : e.cause ≠ .divisionByZero) :
    (s.call rule).2.call rule = (.error e, (s.call rule).2) := by
  obtain ⟨x, hx, rfl⟩ := reader_of_call_error he
  rw [Refusal.locate, errorAt_cause] at hc
  have hagain := Rule.stubborn hp hs _ x hx hc
  rw [← drop_cursor] at hagain
  have htokens : (s.call rule).2.tokens = s.tokens := rfl
  rw [call, htokens, hagain]
  simp only [Except.mapError, ← cursor_call]
  rfl

theorem call_steady (h : s.Valid) (rule : Rule) :
    s.Steady rule (s.call rule).1 (s.call rule).2 where
  tokens := rfl
  forward := by
    obtain ⟨us, _, _, hc⟩ := call_advance h rule
    omega
  bound := (valid_call h rule).bound
  endless := (valid_call h rule).endless
  consumes := fun hr _ => call_consumes h hr
  finished := by
    rintro rfl a
    exact call_finished h
  atCursor := fun _ => call_atCursor
  atZero := fun _ => call_atZero
  again := fun hp hs _ => call_again hp hs

/-- The answer to a call is that of a session which the calls before it have left. -/
theorem calls_answer (s : Session) (before after : List Rule) (rule : Rule) :
    (s.calls (before ++ rule :: after)).1[before.length]? =
      some ((s.calls before).2.call rule).1 := by
  induction before generalizing s with
  | nil => rfl
  | cons first before ih => exact ih (s.call first).2

end Session

/-- At every call of every session the cursor goes forward, up to the first token of the end and no
further. Success reads at least one token, or all up to the end where a program was asked for. An
error is at the cursor, and the call that has met it meets it again, but a division by zero is at
the zero that the cursor has just passed, after a slash. -/
theorem session_steady (ts : List Token) (before after : List Rule) (rule : Rule) :
    ∃ s answer s', ((Session.start ts).calls before).2 = s ∧ s.tokens = ts ∧
      s.call rule = (answer, s') ∧
      ((Session.start ts).calls (before ++ rule :: after)).1[before.length]? = some answer ∧
      s.Steady rule answer s' := by
  refine ⟨_, _, _, rfl, Session.tokens_calls _ _, rfl, Session.calls_answer _ _ _ _, ?_⟩
  exact Session.call_steady (Session.valid_calls (Session.valid_start ts) before) rule

example : (Session.start [⟨.integer, "1", 1⟩, ⟨.slash, "/", 1⟩, ⟨.float, "0.0", 2⟩]).calls
      [.term, .unary, .unary, .program] =
    ([.error ⟨.divisionByZero, 2, 0, "0.0"⟩, .error ⟨.expected "unknown token", 2, 0, "0.0"⟩,
      .error ⟨.expected "unknown token", 2, 0, "0.0"⟩, .ok (.program [])],
      ⟨[⟨.integer, "1", 1⟩, ⟨.slash, "/", 1⟩, ⟨.float, "0.0", 2⟩], 3⟩) := by
  decide +kernel

end Scriptlet
