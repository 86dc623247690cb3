import Scriptlet.Proofs.Lookahead

/-!
Where refusals stand. What has been read before the refused token can always be completed, and
nothing that goes on with the refused token can be read. A division by zero is refused at its
literal, which has been read by then; every other refusal is at the cursor.
-/

namespace Scriptlet

namespace Reader

open Grammar

variable {α β : Type} {r : Reader α} {f : α → Reader β} {ts us : List Token} {a : α}
  {x : Refusal} {t : Token} {e left : Expr} {tier : Tier} {next : Reader Expr}
  {Next : Phrase Expr}

/-- The phrases that can stand on the right of every operator. -/
def NonZero (P : Phrase Expr) : Phrase Expr :=
  fun us e => P us e ∧ ¬ ZeroLiteral e

theorem nonZero_binary {P : Phrase Expr} {op : Operator} {right : Expr} {line : Nat}
    (h : P us (.binary left op right line)) : NonZero P us (.binary left op right line) :=
  ⟨h, fun hz => by cases hz⟩

theorem nonZero_filler : NonZero Unary [filler] (.reference "x" 1) :=
  ⟨.primary primary_filler, fun hz => by cases hz⟩

theorem viable_unary : Viable unary (NonZero Unary) := by
  intro ts
  induction ts with
  | nil =>
    intro x h
    cases h
    exact ⟨[], [filler], _, rfl, nonZero_filler⟩
  | cons t ts ih =>
    intro x h
    by_cases ht : t.kind = .bang
    · simp only [unary, unaryRun_bang ht] at h ih
      obtain ⟨us, vs, operand, hus, hu, _⟩ := ih x (map_eq_error h)
      exact ⟨t :: us, vs, _, congrArg (t :: ·) hus, .not ht hu, fun hz => by cases hz⟩
    · simp only [unary, unaryRun_primary (show peek (t :: ts) ≠ .bang from ht)] at h
      exact viable_token nonZero_filler _ x h

/-- After a refusal the chain goes on with an operand that is no zero, so that the operator before
it does not matter. -/
theorem viable_extend (hs : Sound next Next) (hv : Viable next (NonZero Next))
    (hi : ∃ us e, NonZero Next us e) :
    Viable ⟨extend tier next left, extend_suffix tier next left⟩
      (NonZero (Tail tier Next left)) := by
  intro ts x h
  simp only at h
  fun_induction extend tier next left ts with
  | case1 left => cases h
  | case2 left t ts hop => cases h
  | case3 left t ts op hop right y hy =>
    cases h
    obtain ⟨us, vs, e, hus, hn, hz⟩ := hv ts x hy
    refine ⟨t :: us, vs, .binary left op e t.line, congrArg (t :: ·) hus, nonZero_binary ?_⟩
    simpa using Tail.cons (operatorIn?_eq_some.mp hop) hn (fun hd => hz hd.2) .nil
  | case4 left t ts op hop right operand ho hd =>
    cases h
    obtain ⟨vs, e, hn, hz⟩ := hi
    refine ⟨[t], vs, .binary left op e t.line, rfl, nonZero_binary ?_⟩
    simpa using Tail.cons (operatorIn?_eq_some.mp hop) hn (fun hd => hz hd.2) .nil
  | case5 left t ts op hop right operand ho hd ih =>
    obtain ⟨ws, hws, hn⟩ := hs ts operand ho
    obtain ⟨us, vs, e, hus, ht, hz⟩ := ih h
    rw [← zeroLiteral_iff] at hd
    refine ⟨t :: (ws ++ us), vs, e, ?_, ?_, hz⟩
    · rw [List.cons_append, List.append_assoc, ← hus]
      exact congrArg (t :: ·) hws
    · simpa using Tail.cons (operatorIn?_eq_some.mp hop) hn hd ht

theorem viable_chain (hs : Sound next Next) (hv : Viable next (NonZero Next))
    (hi : ∃ us e, NonZero Next us e) : Viable (chain tier next) (NonZero (Chain tier Next)) := by
  intro ts x h
  rcases bind_error h with hx | ⟨first, hf, hrun⟩
  · obtain ⟨us, vs, e, hus, hn, hz⟩ := hv ts x hx
    exact ⟨us, vs, e, hus, .operand hn, hz⟩
  · obtain ⟨us, hus, hn⟩ := hs ts first hf
    rw [chain, hrun] at h
    obtain ⟨vs, ws, e, hvs, ht, hz⟩ := viable_extend hs hv hi _ x h
    refine ⟨us ++ vs, ws, e, ?_, ?_, hz⟩
    · rw [List.append_assoc, ← hvs]
      exact hus
    · rw [List.append_assoc]
      exact chain_tail (.operand hn) ht

theorem inhabited_chain (h : ∃ us e, NonZero Next us e) :
    ∃ us e, NonZero (Chain tier Next) us e := by
  obtain ⟨us, e, hn, hz⟩ := h
  exact ⟨us, e, .operand hn, hz⟩

theorem viable_expression : Viable expression (NonZero Expression) := by
  have hu : ∃ us e, NonZero Unary us e := ⟨_, _, nonZero_filler⟩
  have sf : Sound factor Factor := sound_chain sound_unary
  have st : Sound term Term := sound_chain sf
  have hf : Viable factor (NonZero Factor) := viable_chain sound_unary viable_unary hu
  have ht : Viable term (NonZero Term) := viable_chain sf hf (inhabited_chain hu)
  have hc : Viable comparison (NonZero Comparison) :=
    viable_chain st ht (inhabited_chain (inhabited_chain hu))
  exact viable_chain (sound_chain st) hc (inhabited_chain (inhabited_chain (inhabited_chain hu)))

theorem separator_error (h : (separator.run ts).outcome = .error x) : x.here = ts := by
  simp only [separator] at h
  split at h
  · cases h
  · split at h <;> cases h
    rfl

theorem viable_item : Viable item (fun us e => Program us [e]) := by
  intro ts x h
  rcases bind_error h with hx | ⟨e, he, hrun⟩
  · simp only [statement] at hx
    split at hx
    · obtain ⟨us, vs, e, hus, hd⟩ := reads_declaration.viable ts x hx
      exact ⟨us, vs, e, hus, by simpa using Program.declaration hd .nil⟩
    · obtain ⟨us, vs, e, hus, he, _⟩ := viable_expression ts x hx
      exact ⟨us, vs, e, hus, .last he⟩
  · obtain ⟨us, hus, hd | hx⟩ := sound_statement ts e he
    · rw [item, hrun, if_pos (declaration_isDeclaration hd)] at h
      cases h
    · have hd : ¬ e.isDeclaration = true := by simp [expression_not_declaration hx]
      rw [item, hrun, if_neg hd] at h
      rcases bind_error h with hsep | ⟨_, _, hpure⟩
      · rw [separator_error hsep]
        exact ⟨us, [], e, hus, by simpa using Program.last hx⟩
      · rw [hpure] at h
        cases h

theorem viable_program : Viable program Program := by
  intro ts x h
  simp only [program] at h
  fun_induction programRun ts with
  | case1 => cases h
  | case2 t ts ht => cases h
  | case3 t ts hf ht ih =>
    obtain ⟨us, vs, es, hus, hp⟩ := ih h
    exact ⟨t :: us, vs, es, congrArg (t :: ·) hus, .semicolon ht hp⟩
  | case4 t ts hf hs y hy =>
    cases h
    obtain ⟨us, vs, e, hus, hp⟩ := viable_item (t :: ts) x hy
    exact ⟨us, vs, [e], hus, hp⟩
  | case5 t ts hf hs e he hlt ih =>
    have hr := map_eq_error h
    obtain ⟨us, vs, es, hus, hp⟩ := ih hr
    rcases item_ok he with ⟨ws, hws, hd⟩ | ⟨ws, u, hws, hu, hx⟩ | ⟨ws, hws, hk, hx⟩
    · refine ⟨ws ++ us, vs, e :: es, ?_, ?_⟩
      · rw [List.append_assoc, ← hus, ← hws]
      · rw [List.append_assoc]
        exact .declaration hd hp
    · refine ⟨ws ++ u :: us, vs, e :: es, ?_, ?_⟩
      · rw [List.append_assoc, List.cons_append, ← hus, ← hws]
      · rw [List.append_assoc, List.cons_append]
        exact .expression hx hu hp
    · rw [programRun_finish hk] at hr
      cases hr

/-- The refused token is a zero literal after `/`, and the cursor has passed it. -/
def ZeroDivision (ts here rest : List Token) : Prop :=
  ∃ us slash zero e, ts = us ++ slash :: here ∧ here = zero :: rest ∧ slash.kind = .slash ∧
    Primary zero e ∧ ZeroLiteral e

/-- Where a refusal stands. -/
def Placed (r : Reader α) : Prop :=
  ∀ ts x, (r.run ts).outcome = .error x →
    x.cause ≠ .divisionByZero ∧ x.here = (r.run ts).rest ∨
      x.cause = .divisionByZero ∧ ZeroDivision ts x.here (r.run ts).rest

theorem placed_append {rest : List Token} (us : List Token)
    (h : x.cause ≠ .divisionByZero ∧ x.here = rest ∨
      x.cause = .divisionByZero ∧ ZeroDivision ts x.here rest) :
    x.cause ≠ .divisionByZero ∧ x.here = rest ∨
      x.cause = .divisionByZero ∧ ZeroDivision (us ++ ts) x.here rest := by
  rcases h with h | ⟨hc, vs, slash, zero, e, rfl, hz⟩
  · exact Or.inl h
  · exact Or.inr ⟨hc, us ++ vs, slash, zero, e, by rw [List.append_assoc], hz⟩

theorem placed_pure : Placed (pure a) := by
  intro ts x h
  cases h

theorem placed_bind (hr : Placed r) (hf : ∀ a, Placed (f a)) : Placed (r >>= f) := by
  intro ts x h
  rcases bind_error h with hx | ⟨a, ha, hrun⟩
  · have hrest : ((r >>= f).run ts).rest = (r.run ts).rest := by
      rw [run_bind, Step.andThen, hx]
    rw [hrest]
    exact hr ts x hx
  · rw [hrun] at h ⊢
    obtain ⟨us, hus⟩ := r.suffix ts
    have hp := placed_append us (hf a _ x h)
    rwa [hus] at hp

theorem placed_token {missing : SyntaxError.Cause} {g : Token → Except SyntaxError.Cause α}
    (hm : missing ≠ .divisionByZero) (hg : ∀ t, g t ≠ .error .divisionByZero) :
    Placed (token missing g) := by
  intro ts x h
  cases ts with
  | nil =>
    cases h
    exact Or.inl ⟨hm, rfl⟩
  | cons t ts =>
    cases ht : g t with
    | ok a => simp [token, ht] at h
    | error c =>
      simp only [token, ht] at h ⊢
      cases h
      refine Or.inl ⟨?_, rfl⟩
      rintro rfl
      exact hg t ht

theorem placed_expect {kind : Token.Kind} {what : String} : Placed (expect kind what) := by
  apply placed_token
  · simp
  · intro t
    split <;> simp

theorem placed_primary : Placed primary := by
  apply placed_token
  · simp
  · intro t
    simp only [Token.operand]
    repeat' split
    all_goals simp

theorem placed_accept {kind : Token.Kind} : Placed (accept kind) :=
  fun _ _ h => (accept_ne_error h).elim

theorem placed_require {p : Token.Kind → Bool} {what : String} : Placed (require p what) := by
  intro ts x h
  simp only [require] at h ⊢
  split at h <;> cases h
  rename_i hp
  exact Or.inl ⟨by simp, by simp [hp]⟩

theorem placed_unary : Placed unary := by
  intro ts
  induction ts with
  | nil => exact placed_primary []
  | cons t ts ih =>
    intro x h
    by_cases ht : t.kind = .bang
    · simp only [unary, unaryRun_bang ht] at h ih ⊢
      exact placed_append [t] (ih x (map_eq_error h))
    · simp only [unary, unaryRun_primary (show peek (t :: ts) ≠ .bang from ht)] at h ⊢
      exact placed_primary _ x h

theorem placed_extend (hn : Placed next) (hd : Joins tier .slash .div → ZeroAlone next) :
    Placed ⟨extend tier next left, extend_suffix tier next left⟩ := by
  intro ts x h
  simp only at h ⊢
  fun_induction extend tier next left ts with
  | case1 left => cases h
  | case2 left t ts hop => cases h
  | case3 left t ts op hop right y hy =>
    cases h
    exact placed_append [t] (hn ts x hy)
  | case4 left t ts op hop right e he hz =>
    cases h
    have hj := operatorIn?_eq_some.mp hop
    rw [hz.1] at hj
    obtain ⟨u, xs, rfl, hu, hrun⟩ := hd (joins_div hj ▸ hj) ts e he hz.2
    have hr : right.rest = xs := congrArg Step.rest (hrun xs)
    refine Or.inr ⟨rfl, [], t, u, e, rfl, by rw [hr], joins_div hj, hu, zeroLiteral_iff.mpr hz.2⟩
  | case5 left t ts op hop right e he hz ih =>
    obtain ⟨us, hus⟩ := next.suffix ts
    have hp := placed_append (t :: us) (ih h)
    rwa [List.cons_append, hus] at hp

theorem placed_chain (hn : Placed next) (hd : Joins tier .slash .div → ZeroAlone next) :
    Placed (chain tier next) :=
  placed_bind hn fun _ => placed_extend hn hd

theorem placed_expression : Placed expression := by
  have hf : Placed factor := placed_chain placed_unary fun _ => zeroAlone_unary
  have ht : Placed term := placed_chain hf (zeroAlone_vacuous (by decide))
  have hc : Placed comparison := placed_chain ht (zeroAlone_vacuous (by decide))
  exact placed_chain hc (zeroAlone_vacuous (by decide))

theorem placed_typeName : Placed typeName := by
  refine placed_bind placed_accept ?_
  intro b
  cases b with
  | false => exact placed_pure
  | true => exact placed_bind placed_expect fun _ => placed_pure

theorem placed_declaration : Placed declaration :=
  placed_bind placed_expect fun _ => placed_bind placed_accept fun _ =>
    placed_bind placed_expect fun _ => placed_bind placed_typeName fun _ =>
    placed_bind placed_expect fun _ => placed_bind placed_require fun _ =>
    placed_bind placed_primary fun _ => placed_bind placed_expect fun _ => placed_pure

theorem placed_statement : Placed statement := by
  intro ts x h
  simp only [statement] at h ⊢
  split at h
  · rename_i hk
    rw [if_pos hk]
    exact placed_declaration ts x h
  · rename_i hk
    rw [if_neg hk]
    exact placed_expression ts x h

theorem placed_separator : Placed separator := by
  intro ts x h
  by_cases hs : peek ts = .semicolon
  · simp [separator, hs] at h
  · by_cases hf : peek ts = .finish
    · simp [separator, hf] at h
    · simp only [separator, hs, hf, if_false] at h ⊢
      cases h
      exact Or.inl ⟨by simp, rfl⟩

theorem placed_item : Placed item := by
  refine placed_bind placed_statement ?_
  intro e
  by_cases hd : e.isDeclaration = true
  · rw [if_pos hd]
    exact placed_pure
  · rw [if_neg hd]
    exact placed_bind placed_separator fun _ => placed_pure

theorem placed_program : Placed program := by
  intro ts x h
  simp only [program] at h ⊢
  fun_induction programRun ts with
  | case1 => cases h
  | case2 t ts ht => cases h
  | case3 t ts hf ht ih =>
    exact placed_append [t] (ih h)
  | case4 t ts hf hs y hy =>
    cases h
    exact placed_item (t :: ts) x hy
  | case5 t ts hf hs e he hlt ih =>
    obtain ⟨us, hus⟩ := item.suffix (t :: ts)
    have hp := placed_append us (ih (map_eq_error h))
    rwa [hus] at hp

end Reader

open Grammar Reader

variable {ts us hs : List Token} {t : Token} {e : SyntaxError} {x : Refusal}

theorem parse_eq_error : parse ts = .error e ↔
    ∃ x, (programRun ts).outcome = .error x ∧ x.locate ts = e := by
  have hp : parse ts = (programRun ts).outcome.mapError (·.locate ts) := rfl
  rw [hp]
  cases (programRun ts).outcome <;> simp [Except.mapError]

@[simp] theorem errorAt_cause {n : Nat} {cause : SyntaxError.Cause} :
    (Token.errorAt ts n cause).cause = cause := by
  simp only [Token.errorAt]
  split <;> rfl

theorem errorAt_line {cause : SyntaxError.Cause} :
    (Token.errorAt (us ++ t :: hs) us.length cause).line = t.line := by
  have hk : min us.length ((us ++ t :: hs).length - 1) = us.length := by
    simp
  simp only [Token.errorAt, hk]
  simp

/-- A token of the end stands last, and nowhere else. -/
def Token.Closed (ts : List Token) : Prop :=
  ∃ us z, ts = us ++ [z] ∧ z.kind = .finish ∧ Endless us

/-- The refusal of a closed list is at one of its tokens. -/
theorem refusal_token (hc : Token.Closed ts) (hts : ts = us ++ x.here) (hu : Endless us) :
    ∃ t hs, x.here = t :: hs := by
  obtain ⟨vs, z, hvs, hz, _⟩ := hc
  cases hh : x.here with
  | nil =>
    have hm : z ∈ us := by
      rw [hh, List.append_nil, hvs] at hts
      simp [← hts]
    exact (hu z hm hz).elim
  | cons t hs => exact ⟨t, hs, rfl⟩

theorem take_length_succ : (us ++ t :: hs).take (us.length + 1) = us ++ [t] := by
  simp [List.take_append]

/-- The error is at the token of this index, the earliest possible one: what stands before the token
can be completed to a program, and what goes on after it is always refused for the same cause. A
division by zero is at its zero. -/
structure EarliestAt (ts : List Token) (e : SyntaxError) (k : Nat) : Prop where
  located : e = Token.errorAt ts k e.cause
  atToken : ∃ t, ts[k]? = some t ∧ e.line = t.line ∧
    (e.cause = .divisionByZero → ∃ zero, Primary t zero ∧ ZeroLiteral zero)
  viable : ∃ us, Endless us ∧ ∀ z : Token, z.kind = .finish →
    ∃ program, parse (ts.take k ++ us ++ [z]) = .ok program
  refused : ∀ us, ∃ e', parse (ts.take (k + 1) ++ us) = .error e' ∧ e'.cause = e.cause

theorem parse_error_earliest (ts : List Token) (e : SyntaxError) (hc : Token.Closed ts)
    (h : parse ts = .error e) : ∃ k, EarliestAt ts e k := by
  obtain ⟨x, hx, rfl⟩ := parse_eq_error.mp h
  obtain ⟨us, vs, program, hus, hp⟩ := viable_program ts x hx
  obtain ⟨hu, hv⟩ := endless_append.mp (endless_program hp)
  obtain ⟨t, hs, hh⟩ := refusal_token hc hus hu
  obtain ⟨us', n, hus', _, hlocal⟩ := (local_program ts).error x hx
  -- Both accounts of the refusal split the list at the same token.
  obtain rfl : us = us' := List.append_cancel_right (hus.symm.trans hus')
  have hat : x.locate ts = Token.errorAt ts us.length x.cause := by
    rw [Refusal.locate, hus, List.length_append, Nat.add_sub_cancel]
  rw [hh] at hus
  subst hus
  refine ⟨us.length, ?_, ⟨t, by simp, ?_, ?_⟩, ⟨vs, hv, ?_⟩, ?_⟩
  · rw [hat, errorAt_cause]
  · rw [hat]
    exact errorAt_line
  · rw [hat, errorAt_cause]
    intro hz
    rcases placed_program _ x hx with ⟨hne, _⟩ | ⟨_, _, _, zero, e, _, hhere, _, hp, he⟩
    · exact (hne hz).elim
    · obtain ⟨rfl, _⟩ := List.cons.inj (hh.symm.trans hhere)
      exact ⟨e, hp, he⟩
  · intro z hz
    refine ⟨program, ?_⟩
    rw [List.take_left]
    exact parse_of_program hp hz
  · intro zs
    have hrun := hlocal (t :: zs) (Or.inl (by rw [hh]; rfl))
    refine ⟨_, parse_eq_error.mpr ⟨⟨x.cause, t :: zs⟩, ?_, rfl⟩, by simp [Refusal.locate]⟩
    rw [take_length_succ, List.append_assoc]
    exact congrArg Step.outcome hrun

/-- The tokens of `1 / 0`. -/
def zeroDivisor : List Token :=
  [⟨.integer, "1", 1⟩, ⟨.slash, "/", 1⟩, ⟨.integer, "0", 1⟩, ⟨.finish, "", 1⟩]

theorem parse_error_earliest_zeroDivisor :
    Token.Closed zeroDivisor ∧ parse zeroDivisor = .error ⟨.divisionByZero, 1, 4, "1 / 0"⟩ ∧
      ∃ k, EarliestAt zeroDivisor ⟨.divisionByZero, 1, 4, "1 / 0"⟩ k := by
  have hc : Token.Closed zeroDivisor := by
    refine ⟨zeroDivisor.dropLast, ⟨.finish, "", 1⟩, rfl, rfl, ?_⟩
    unfold Endless
    decide
  have hp : parse zeroDivisor = .error ⟨.divisionByZero, 1, 4, "1 / 0"⟩ := by
    decide +kernel
  exact ⟨hc, hp, parse_error_earliest zeroDivisor _ hc hp⟩

end Scriptlet
