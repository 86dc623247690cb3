import Scriptlet.Proofs.Acceptance

/-!
Readers look one token ahead. What a reader answers depends on the tokens it has read and on the
next one only, and at the end it sees no difference between a token of the end and none at all.
-/

namespace Scriptlet.Reader

open Grammar

variable {α β : Type} {r : Reader α} {f : α → Reader β} {ts us xs ys zs rest : List Token}
  {a : α} {b : β} {x : Refusal} {t : Token} {e left : Expr} {es : List Expr} {tier : Tier}
  {next : Reader Expr}

/-- Two lists that start alike for a reader. -/
def SameNext (xs ys : List Token) : Prop :=
  xs.head? = ys.head? ∨ peek xs = .finish ∧ peek ys = .finish

theorem sameNext_peek (h : SameNext xs ys) : peek xs = peek ys := by
  rcases h with h | ⟨hx, hy⟩
  · cases xs <;> cases ys <;> simp_all [peek]
  · rw [hx, hy]

theorem sameNext_append (us : List Token) (h : SameNext xs ys) : SameNext (us ++ xs) (us ++ ys) := by
  cases us with
  | nil => exact h
  | cons t us => exact Or.inl rfl

/-- Where the next token is not of the end, lists that start alike share it. -/
theorem sameNext_cons (h : SameNext (t :: xs) zs) (ht : t.kind ≠ .finish) :
    ∃ ys, zs = t :: ys := by
  rcases h with h | ⟨hk, _⟩
  · cases zs with
    | nil => cases h
    | cons u ys =>
      cases h
      exact ⟨ys, rfl⟩
  · exact (ht hk).elim

/-- The answer to a list stays the same when the tokens from the next one on are exchanged for
others that start alike. A refusal keeps its cause and its place, and the cursor stays as far
behind it. -/
structure LocalAt (run : List Token → Step α) (ts : List Token) : Prop where
  ok : ∀ a, (run ts).outcome = .ok a → ∃ us, ts = us ++ (run ts).rest ∧
    ∀ zs, SameNext (run ts).rest zs → run (us ++ zs) = ⟨.ok a, zs⟩
  error : ∀ x, (run ts).outcome = .error x → ∃ us n, ts = us ++ x.here ∧
    (run ts).rest = x.here.drop n ∧
    ∀ zs, SameNext x.here zs → run (us ++ zs) = ⟨.error ⟨x.cause, zs⟩, zs.drop n⟩

def Local (r : Reader α) : Prop :=
  ∀ ts, LocalAt r.run ts

/-- Tokens in front that are read in the same way whatever follows alike. -/
theorem localAt_front {run : List Token → Step β} {run' : List Token → Step α} (us : List Token)
    (g : α → β) (h : LocalAt run' ts) (hrun : ∀ zs, SameNext ts zs → run (us ++ zs) = (run' zs).map g) :
    LocalAt run (us ++ ts) := by
  have hts := hrun ts (Or.inl rfl)
  constructor
  · intro b hb
    rw [hts] at hb ⊢
    obtain ⟨a, ha, rfl⟩ := map_eq_ok hb
    obtain ⟨vs, hvs, hv⟩ := h.ok a ha
    refine ⟨us ++ vs, ?_, ?_⟩
    · rw [List.append_assoc]
      exact congrArg (us ++ ·) hvs
    · intro zs hz
      have hs := sameNext_append vs hz
      rw [← show ts = vs ++ ((run' ts).map g).rest from hvs] at hs
      rw [List.append_assoc, hrun _ hs, hv zs hz]
      rfl
  · intro x hx
    rw [hts] at hx ⊢
    obtain ⟨vs, n, hvs, hn, hv⟩ := h.error x (map_eq_error hx)
    refine ⟨us ++ vs, n, ?_, hn, ?_⟩
    · rw [List.append_assoc, ← hvs]
    · intro zs hz
      have hs := sameNext_append vs hz
      rw [← hvs] at hs
      rw [List.append_assoc, hrun _ hs, hv zs hz]
      rfl

/-- Tokens in front of a list that is refused. -/
theorem localAt_failed {run : List Token → Step β} {run' : List Token → Step α} (us : List Token)
    (h : LocalAt run' ts) (hx : (run' ts).outcome = .error x)
    (hrun : ∀ zs y rest, SameNext ts zs → run' zs = ⟨.error y, rest⟩ →
      run (us ++ zs) = ⟨.error y, rest⟩) :
    LocalAt run (us ++ ts) := by
  obtain ⟨vs, n, hvs, hn, hv⟩ := h.error x hx
  have hts : run (us ++ ts) = ⟨.error x, x.here.drop n⟩ :=
    hrun ts x _ (Or.inl rfl) (by rw [← hx, ← hn])
  constructor
  · intro b hb
    rw [hts] at hb
    cases hb
  · intro y hy
    rw [hts] at hy ⊢
    cases hy
    refine ⟨us ++ vs, n, ?_, rfl, ?_⟩
    · rw [List.append_assoc, ← hvs]
    · intro zs hz
      have hs := sameNext_append vs hz
      rw [← hvs] at hs
      rw [List.append_assoc]
      exact hrun _ _ _ hs (hv zs hz)

theorem map_id (s : Step α) : s.map id = s := by
  cases s with
  | mk outcome rest => cases outcome <;> rfl

/-- Two ways to read that agree on all lists that start alike. -/
theorem localAt_congr {run run' : List Token → Step α} (h : LocalAt run' ts)
    (hrun : ∀ zs, SameNext ts zs → run zs = run' zs) : LocalAt run ts := by
  refine localAt_front [] id h ?_
  intro zs hz
  rw [map_id]
  exact hrun zs hz

theorem local_pure : Local (pure a) := by
  intro ts
  constructor
  · intro b h
    cases h
    exact ⟨[], rfl, fun _ _ => rfl⟩
  · intro x h
    cases h

theorem local_bind (hr : Local r) (hf : ∀ a, Local (f a)) : Local (r >>= f) := by
  intro ts
  cases ho : (r.run ts).outcome with
  | ok a =>
    obtain ⟨us, hus, hu⟩ := (hr ts).ok a ho
    have h : LocalAt (r >>= f).run (us ++ (r.run ts).rest) := by
      refine localAt_front us id (hf a _) ?_
      intro zs hz
      rw [map_id, run_bind_of_run (hu zs hz)]
    rwa [← hus] at h
  | error x =>
    refine localAt_failed [] (hr ts) ho ?_
    intro zs y rest _ hy
    rw [List.nil_append, run_bind, hy, Step.andThen]

theorem token_refused {missing : SyntaxError.Cause} {g : Token → Except SyntaxError.Cause α}
    (hg : ∀ t, t.kind = .finish → g t = .error missing) (h : peek ts = .finish) :
    (token missing g).run ts = ⟨.error ⟨missing, ts⟩, ts⟩ := by
  cases ts with
  | nil => rfl
  | cons t ts => simp [token, hg t h]

theorem local_token {missing : SyntaxError.Cause} {g : Token → Except SyntaxError.Cause α}
    (hg : ∀ t, t.kind = .finish → g t = .error missing) : Local (token missing g) := by
  intro ts
  constructor
  · intro a h
    obtain ⟨us, hus, t, rfl, ht⟩ := sound_token ts a h
    exact ⟨[t], hus, fun zs _ => by simp [token, ht]⟩
  · intro x h
    by_cases hk : peek ts = .finish
    · rw [token_refused hg hk] at h ⊢
      cases h
      refine ⟨[], 0, rfl, rfl, ?_⟩
      intro zs hz
      exact token_refused hg ((sameNext_peek hz).symm.trans hk)
    · cases ts with
      | nil => exact (hk rfl).elim
      | cons t ts =>
        cases ht : g t with
        | ok a => simp [token, ht] at h
        | error c =>
          simp only [token, ht] at h ⊢
          cases h
          refine ⟨[], 0, rfl, rfl, ?_⟩
          intro zs hz
          obtain ⟨ys, rfl⟩ := sameNext_cons hz hk
          simp [ht]

theorem local_expect {kind : Token.Kind} {what : String} (hk : kind ≠ .finish) :
    Local (expect kind what) := by
  apply local_token
  intro t ht
  simp [ht, hk.symm]

theorem local_primary : Local primary := by
  apply local_token
  intro t ht
  simp [Token.operand, ht]

theorem local_accept {kind : Token.Kind} (hk : kind ≠ .finish) : Local (accept kind) := by
  intro ts
  by_cases hp : peek ts = kind
  · cases ts with
    | nil => exact (hk hp.symm).elim
    | cons t ts =>
      refine localAt_front [t] id (local_pure (a := true) ts) ?_
      intro zs _
      simp [accept, peek, show t.kind = kind from hp, Step.map, Except.map]
  · refine localAt_congr (local_pure (a := false) ts) ?_
    intro zs hz
    simp [accept, ← sameNext_peek hz, hp]

/-- Refuses whatever comes next. -/
def refuse (cause : SyntaxError.Cause) : Reader α :=
  ⟨fun ts => ⟨.error ⟨cause, ts⟩, ts⟩, fun _ => List.suffix_rfl⟩

theorem local_refuse (cause : SyntaxError.Cause) : Local (refuse cause : Reader α) := by
  intro ts
  constructor
  · intro a h
    cases h
  · intro x h
    cases h
    exact ⟨[], 0, rfl, rfl, fun _ _ => rfl⟩

theorem local_require {p : Token.Kind → Bool} {what : String} : Local (require p what) := by
  intro ts
  by_cases hp : p (peek ts) = true
  · refine localAt_congr (local_pure (a := ()) ts) ?_
    intro zs hz
    simp [require, ← sameNext_peek hz, hp]
  · refine localAt_congr (local_refuse (.expected what) ts) ?_
    intro zs hz
    simp [require, refuse, ← sameNext_peek hz, hp]

theorem local_unary : Local unary := by
  intro ts
  induction ts with
  | nil =>
    refine localAt_congr (local_primary []) ?_
    intro zs hz
    exact unaryRun_primary (by rw [← sameNext_peek hz]; decide)
  | cons t ts ih =>
    by_cases ht : t.kind = .bang
    · refine localAt_front [t] (.not · t.line) ih ?_
      intro zs _
      exact unaryRun_bang ht
    · refine localAt_congr (local_primary _) ?_
      intro zs hz
      exact unaryRun_primary (by rw [← sameNext_peek hz]; exact ht)

/-- Reads a zero literal as one token, whatever follows. -/
def ZeroAlone (next : Reader Expr) : Prop :=
  ∀ ts e, (next.run ts).outcome = .ok e → e.isZeroLiteral = true →
    ∃ t xs, ts = t :: xs ∧ Primary t e ∧ ∀ ys, next.run (t :: ys) = ⟨.ok e, ys⟩

theorem localAt_extend (hn : Local next) (hd : Joins tier .slash .div → ZeroAlone next) :
    LocalAt (extend tier next left) ts := by
  fun_induction extend tier next left ts with
  | case1 left =>
    refine localAt_congr (local_pure (a := left) []) ?_
    intro zs hz
    apply extend_stop
    rw [← sameNext_peek hz]
    exact not_joins_finish tier
  | case2 left t ts hop =>
    refine localAt_congr (local_pure (a := left) _) ?_
    intro zs hz
    apply extend_stop
    intro op hj
    rw [← sameNext_peek hz] at hj
    simp [operatorIn?_eq_some.mpr hj] at hop
  | case3 left t ts op hop right x hx =>
    refine localAt_failed [t] (hn ts) hx ?_
    intro zs y rest _ hy
    exact extend_error (operatorIn?_eq_some.mp hop) hy
  | case4 left t ts op hop right e he hz =>
    have hj := operatorIn?_eq_some.mp hop
    rw [hz.1] at hj
    -- The zero is one token, so the cursor is one token behind the refusal.
    obtain ⟨u, xs, rfl, hu, hrun⟩ := hd (joins_div hj ▸ hj) ts e he hz.2
    have hts : extend tier next left (t :: u :: xs) = _ := extend_zero hj (hrun xs) hz.2
    constructor
    · intro a ha
      rw [hts] at ha
      cases ha
    · intro x hx
      rw [hts] at hx ⊢
      cases hx
      refine ⟨[t], 1, rfl, rfl, ?_⟩
      intro zs hzs
      obtain ⟨ys, rfl⟩ := sameNext_cons hzs (endless_primary hu)
      exact extend_zero hj (hrun ys) hz.2
  | case5 left t ts op hop right e he hz ih =>
    obtain ⟨us, hus, hu⟩ := (hn ts).ok e he
    have h : LocalAt (extend tier next left) (t :: us ++ (next.run ts).rest) := by
      refine localAt_front (t :: us) id ih ?_
      intro zs hzs
      rw [map_id]
      exact extend_join (operatorIn?_eq_some.mp hop) (hu zs hzs) hz
    rwa [List.cons_append, ← hus] at h

theorem local_chain (hn : Local next) (hd : Joins tier .slash .div → ZeroAlone next) :
    Local (chain tier next) :=
  local_bind hn fun _ _ => localAt_extend hn hd

theorem zeroAlone_unary : ZeroAlone unary := by
  intro ts e h hz
  obtain ⟨us, hus, hu⟩ := sound_unary ts e h
  cases hu with
  | @primary t _ hp =>
    refine ⟨t, _, hus, hp, ?_⟩
    intro ys
    exact complete_unary [t] e ys (.primary hp) trivial
  | not => cases hz

/-- Only the tightest tier has a division. -/
theorem zeroAlone_vacuous (hne : tier ≠ .factor) : Joins tier .slash .div → ZeroAlone next :=
  fun h => (hne (joins_tier_unique h .div)).elim

theorem local_factor : Local factor :=
  local_chain local_unary fun _ => zeroAlone_unary

theorem local_term : Local term :=
  local_chain local_factor (zeroAlone_vacuous (by decide))

theorem local_comparison : Local comparison :=
  local_chain local_term (zeroAlone_vacuous (by decide))

theorem local_expression : Local expression :=
  local_chain local_comparison (zeroAlone_vacuous (by decide))

theorem local_typeName : Local typeName := by
  refine local_bind (local_accept (by decide)) ?_
  intro b
  cases b with
  | false => exact local_pure
  | true => exact local_bind (local_expect (by decide)) fun _ => local_pure

theorem local_declaration : Local declaration :=
  local_bind (local_expect (by decide)) fun _ => local_bind (local_accept (by decide)) fun _ =>
    local_bind (local_expect (by decide)) fun _ => local_bind local_typeName fun _ =>
    local_bind (local_expect (by decide)) fun _ => local_bind local_require fun _ =>
    local_bind local_primary fun _ => local_bind (local_expect (by decide)) fun _ => local_pure

theorem local_statement : Local statement := by
  intro ts
  by_cases hk : peek ts = .letWord
  · refine localAt_congr (local_declaration ts) ?_
    intro zs hz
    simp [statement, ← sameNext_peek hz, hk]
  · refine localAt_congr (local_expression ts) ?_
    intro zs hz
    simp [statement, ← sameNext_peek hz, hk]

theorem local_separator : Local separator := by
  intro ts
  by_cases hs : peek ts = .semicolon
  · cases ts with
    | nil => cases hs
    | cons t ts =>
      refine localAt_front [t] id (local_pure (a := ()) ts) ?_
      intro zs _
      exact separator_semicolon hs
  · by_cases hf : peek ts = .finish
    · refine localAt_congr (local_pure (a := ()) ts) ?_
      intro zs hz
      exact separator_finish ((sameNext_peek hz).symm.trans hf)
    · refine localAt_congr (local_refuse (.expected "expected ;") ts) ?_
      intro zs hz
      simp [separator, refuse, ← sameNext_peek hz, hs, hf]

theorem local_item : Local item := by
  refine local_bind local_statement ?_
  intro e
  by_cases hd : e.isDeclaration = true
  · rw [if_pos hd]
    exact local_pure
  · rw [if_neg hd]
    exact local_bind local_separator fun _ => local_pure

theorem programRun_error (hf : peek ts ≠ .finish) (hs : peek ts ≠ .semicolon)
    (h : item.run ts = ⟨.error x, rest⟩) : programRun ts = ⟨.error x, rest⟩ := by
  cases ts with
  | nil => exact (hf rfl).elim
  | cons t ts =>
    rw [programRun, if_neg (show ¬ t.kind = .finish from hf),
      if_neg (show ¬ t.kind = .semicolon from hs)]
    split
    · rename_i y hy
      rw [h] at hy
      cases hy
      simp only [h]
    · rename_i e he
      simp [h] at he

theorem local_program : Local program := by
  intro ts
  simp only [program]
  fun_induction programRun ts with
  | case1 =>
    refine localAt_congr (local_pure (a := []) []) ?_
    intro zs hz
    exact programRun_finish (sameNext_peek hz).symm
  | case2 t ts ht =>
    refine localAt_congr (local_pure (a := []) _) ?_
    intro zs hz
    exact programRun_finish ((sameNext_peek hz).symm.trans ht)
  | case3 t ts hf ht ih =>
    refine localAt_front [t] id ih ?_
    intro zs _
    rw [map_id]
    exact programRun_semicolon ht
  | case4 t ts hf hs x hx =>
    refine localAt_failed [] (local_item (t :: ts)) hx ?_
    intro zs y rest hz hy
    have hk : peek zs = t.kind := (sameNext_peek hz).symm
    exact programRun_error (hk ▸ hf) (hk ▸ hs) hy
  | case5 t ts hf hs e he hlt ih =>
    obtain ⟨us, hus, hu⟩ := (local_item (t :: ts)).ok e he
    have h : LocalAt programRun (us ++ (item.run (t :: ts)).rest) := by
      refine localAt_front us (e :: ·) ih ?_
      intro zs hz
      have hk : peek (us ++ zs) = t.kind := by
        rw [← sameNext_peek (sameNext_append us hz), ← hus]
        rfl
      exact programRun_item (hk ▸ hf) (hk ▸ hs) (hu zs hz)
    rwa [← hus] at h

end Scriptlet.Reader
