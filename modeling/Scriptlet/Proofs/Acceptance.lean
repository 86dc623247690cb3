import Scriptlet.Proofs.Recognition

/-!
Which token lists are programs: exactly those of which the part before the end is derived by the
grammar, and the program read is the one derived.
-/

namespace Scriptlet

open Grammar

variable {ts us vs zs rest : List Token} {t : Token} {e : Expr} {es : List Expr}

namespace Token

theorem body_finish (h : Reader.peek ts = .finish) : body ts = [] := by
  cases ts with
  | nil => rfl
  | cons t ts => simp_all [body, Reader.peek]

theorem body_append (h : Endless us) : body (us ++ ts) = us ++ body ts := by
  apply List.takeWhile_append_of_pos
  intro t ht
  simpa using h t ht

/-- What is left of a list after its body is read as the end. -/
theorem exists_body (ts : List Token) : ∃ zs, ts = body ts ++ zs ∧ Reader.peek zs = .finish := by
  refine ⟨ts.dropWhile fun t => t.kind ≠ .finish, List.takeWhile_append_dropWhile.symm, ?_⟩
  induction ts with
  | nil => rfl
  | cons t ts ih =>
    by_cases ht : t.kind = .finish
    · simp [ht, Reader.peek]
    · simpa [ht] using ih

end Token

namespace Reader

theorem sound_statement : Sound statement (fun us e => Declaration us e ∨ Expression us e) := by
  intro ts e h
  simp only [statement] at h ⊢
  split at h
  · rename_i hk
    obtain ⟨us, hus, hd⟩ := reads_declaration.sound ts e h
    exact ⟨us, by rwa [if_pos hk], Or.inl hd⟩
  · rename_i hk
    obtain ⟨us, hus, he⟩ := sound_expression ts e h
    exact ⟨us, by rwa [if_neg hk], Or.inr he⟩

theorem peek_append (h : Starts us) (ts : List Token) :
    peek (us ++ ts) ≠ .letWord ∧ peek (us ++ ts) ≠ .semicolon ∧ peek (us ++ ts) ≠ .finish := by
  obtain ⟨t, us, rfl, ht⟩ := h
  simp only [List.cons_append, peek]
  rcases ht with ht | ht
  · simp [ht]
  · refine ⟨?_, ?_, ?_⟩ <;> intro hk <;> simp [hk, Token.Kind.isOperand] at ht

theorem peek_declaration (h : Declaration us e) : peek (us ++ ts) = .letWord := by
  cases h with
  | intro hs => exact hs

theorem separator_semicolon (h : t.kind = .semicolon) : separator.run (t :: ts) = ⟨.ok (), ts⟩ := by
  simp [separator, peek, h]

theorem separator_finish (h : peek ts = .finish) : separator.run ts = ⟨.ok (), ts⟩ := by
  simp [separator, h]

theorem separator_ok (h : (separator.run ts).outcome = .ok ()) :
    (∃ t, ts = t :: (separator.run ts).rest ∧ t.kind = .semicolon) ∨
      (separator.run ts).rest = ts ∧ peek ts = .finish := by
  by_cases hs : peek ts = .semicolon
  · cases ts with
    | nil => simp [peek] at hs
    | cons t ts => exact Or.inl ⟨t, by rw [separator_semicolon hs], hs⟩
  · by_cases hf : peek ts = .finish
    · exact Or.inr ⟨by rw [separator_finish hf], hf⟩
    · simp [separator, hs, hf] at h

theorem item_declaration (h : Declaration us e) : item.run (us ++ ts) = ⟨.ok e, ts⟩ := by
  have hs : statement.run (us ++ ts) = ⟨.ok e, ts⟩ := by
    simpa [statement, peek_declaration h] using complete_declaration us e ts h trivial
  rw [item, run_bind_of_run hs, if_pos (declaration_isDeclaration h), run_pure]

theorem statement_expression (h : Expression us e) (hk : ∀ tier op, ¬ Joins tier (peek ts) op) :
    statement.run (us ++ ts) = ⟨.ok e, ts⟩ := by
  simpa [statement, (peek_append (starts_expression h) ts).1] using complete_expression us e ts h hk

theorem item_expression (h : Expression us e) (hk : ∀ tier op, ¬ Joins tier (peek ts) op)
    (hs : separator.run ts = ⟨.ok (), rest⟩) : item.run (us ++ ts) = ⟨.ok e, rest⟩ := by
  have hd : ¬ e.isDeclaration = true := by simp [expression_not_declaration h]
  rw [item, run_bind_of_run (statement_expression h hk), if_neg hd, run_bind_of_run hs, run_pure]

/-- A declaration has read its own semicolon; after an expression there was one, or the end is
next. -/
theorem item_ok (h : (item.run ts).outcome = .ok e) :
    (∃ us, ts = us ++ (item.run ts).rest ∧ Declaration us e) ∨
      (∃ us t, ts = us ++ t :: (item.run ts).rest ∧ t.kind = .semicolon ∧ Expression us e) ∨
      ∃ us, ts = us ++ (item.run ts).rest ∧ peek (item.run ts).rest = .finish ∧
        Expression us e := by
  obtain ⟨e', he', hrun⟩ := bind_ok h
  rw [item, hrun] at h ⊢
  obtain ⟨us, hus, hd | hx⟩ := sound_statement ts e' he'
  · rw [if_pos (declaration_isDeclaration hd)] at h ⊢
    cases h
    exact Or.inl ⟨us, hus, hd⟩
  · have hd : ¬ e'.isDeclaration = true := by simp [expression_not_declaration hx]
    rw [if_neg hd] at h ⊢
    obtain ⟨_, ho, hsep⟩ := bind_ok h
    rw [hsep] at h ⊢
    cases h
    rcases separator_ok ho with ⟨t, ht, hk⟩ | ⟨hr, hk⟩
    · exact Or.inr (Or.inl ⟨us, t, hus.trans (congrArg (us ++ ·) ht), hk, hx⟩)
    · rw [run_pure, hr]
      exact Or.inr (Or.inr ⟨us, hus, hk, hx⟩)

theorem programRun_finish (h : peek ts = .finish) : programRun ts = ⟨.ok [], ts⟩ := by
  cases ts with
  | nil => rw [programRun]
  | cons t ts => rw [programRun, if_pos (show t.kind = .finish from h)]

theorem programRun_semicolon (h : t.kind = .semicolon) : programRun (t :: ts) = programRun ts := by
  rw [programRun, if_neg (by simp [h]), if_pos h]

theorem programRun_item (hf : peek ts ≠ .finish) (hs : peek ts ≠ .semicolon)
    (h : item.run ts = ⟨.ok e, rest⟩) : programRun ts = (programRun rest).map (e :: ·) := by
  cases ts with
  | nil => exact (hf rfl).elim
  | cons t ts =>
    rw [programRun, if_neg (show ¬ t.kind = .finish from hf),
      if_neg (show ¬ t.kind = .semicolon from hs)]
    split
    · rename_i x hx
      simp [h] at hx
    · rename_i e' he
      rw [h] at he
      cases he
      simp only [h]

/-- A program that was read is derived by the grammar. -/
theorem program_of_run (h : (programRun ts).outcome = .ok es) : Program (Token.body ts) es := by
  fun_induction programRun ts generalizing es with
  | case1 =>
    cases h
    exact .nil
  | case2 t ts ht =>
    cases h
    rw [Token.body_finish (show peek (t :: ts) = .finish from ht)]
    exact .nil
  | case3 t ts hf ht ih =>
    rw [Token.body, List.takeWhile_cons_of_pos (by simpa using hf)]
    exact .semicolon ht (ih h)
  | case4 t ts hf hs x hx => cases h
  | case5 t ts hf hs e he hlt ih =>
    obtain ⟨es', hes', rfl⟩ := map_eq_ok h
    have hp := ih hes'
    rcases item_ok he with ⟨us, hus, hd⟩ | ⟨us, u, hus, hu, hx⟩ | ⟨us, hus, hk, hx⟩
    · rw [hus, Token.body_append (endless_declaration hd)]
      exact .declaration hd hp
    · have hb : Token.body (u :: (item.run (t :: ts)).rest) = u :: _ :=
        List.takeWhile_cons_of_pos (by simp [hu])
      rw [hus, Token.body_append (endless_expression hx), hb]
      exact .expression hx hu hp
    · rw [programRun_finish hk] at hes'
      cases hes'
      rw [hus, Token.body_append (endless_expression hx), Token.body_finish hk, List.append_nil]
      exact .last hx

/-- What the grammar derives is read, whatever follows the end. -/
theorem run_of_program (h : Program us es) (hz : peek zs = .finish) :
    programRun (us ++ zs) = ⟨.ok es, zs⟩ := by
  induction h with
  | nil => exact programRun_finish hz
  | semicolon ht _ ih =>
    rw [List.cons_append, programRun_semicolon ht]
    exact ih
  | @declaration us vs e es hd _ ih =>
    have hk : peek (us ++ (vs ++ zs)) = .letWord := peek_declaration hd
    rw [List.append_assoc, programRun_item (by simp [hk]) (by simp [hk]) (item_declaration hd), ih]
    rfl
  | @expression us vs t e es hx ht _ ih =>
    have hi : item.run (us ++ t :: (vs ++ zs)) = ⟨.ok e, vs ++ zs⟩ :=
      item_expression hx (by simpa [peek, ht] using not_joins_semicolon) (separator_semicolon ht)
    obtain ⟨_, hs, hf⟩ := peek_append (starts_expression hx) (t :: (vs ++ zs))
    rw [List.append_assoc, List.cons_append, programRun_item hf hs hi, ih]
    rfl
  | @last us e hx =>
    have hi : item.run (us ++ zs) = ⟨.ok e, zs⟩ :=
      item_expression hx (by simpa [hz] using not_joins_finish) (separator_finish hz)
    obtain ⟨_, hs, hf⟩ := peek_append (starts_expression hx) zs
    rw [programRun_item hf hs hi, programRun_finish hz]
    rfl

end Reader

theorem parse_eq_ok : parse ts = .ok es ↔ (Reader.programRun ts).outcome = .ok es := by
  have hp : parse ts = (Reader.programRun ts).outcome.mapError (·.locate ts) := rfl
  rw [hp]
  cases (Reader.programRun ts).outcome <;> simp [Except.mapError]

theorem parse_of_program (h : Program us es) (hz : Reader.peek zs = .finish) :
    parse (us ++ zs) = .ok es := by
  rw [parse_eq_ok, Reader.run_of_program h hz]

theorem program_unique {es' : List Expr} (h : Program us es) (h' : Program us es') : es = es' := by
  have hp : parse (us ++ []) = .ok es := parse_of_program h rfl
  rw [parse_of_program h' rfl] at hp
  cases hp
  rfl

/-- Parsing accepts exactly the lists of which the grammar derives the part before the end. It
answers with the derived program, and no list derives two. -/
theorem parse_eq_ok_iff_derives (ts : List Token) (program : List Expr) :
    (parse ts = .ok program ↔ Program (Token.body ts) program) ∧
      {p | Program (Token.body ts) p}.Subsingleton := by
  refine ⟨⟨?_, ?_⟩, ?_⟩
  · intro h
    exact Reader.program_of_run (parse_eq_ok.mp h)
  · intro h
    obtain ⟨zs, hts, hz⟩ := Token.exists_body ts
    rw [hts]
    exact parse_of_program h hz
  · intro p hp q hq
    exact program_unique hp hq

end Scriptlet
