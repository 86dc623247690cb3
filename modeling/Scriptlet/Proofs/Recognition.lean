import Scriptlet.Proofs.Grammar
import Scriptlet.Reader.Program

/-!
The readers read exactly the phrases of the grammar: what a reader has read is a phrase, and a
phrase is read whole when nothing after it can prolong it.
-/

namespace Scriptlet.Reader

open Grammar

variable {α β : Type} {r : Reader α} {f : α → Reader β} {P P' : Phrase α} {Q : α → Phrase β}
  {ts us vs ws rest : List Token} {a : α} {b : β} {x : Refusal} {t : Token} {e left : Expr}
  {tier : Tier} {next : Reader Expr} {Next : Phrase Expr} {follow : Token.Kind → Prop}

/-- Whatever the reader has read is such a phrase. -/
def Sound (r : Reader α) (P : Phrase α) : Prop :=
  ∀ ts a, (r.run ts).outcome = .ok a → ∃ us, ts = us ++ (r.run ts).rest ∧ P us a

/-- What stands before a refused token begins a phrase. -/
def Viable (r : Reader α) (P : Phrase α) : Prop :=
  ∀ ts x, (r.run ts).outcome = .error x → ∃ us vs a, ts = us ++ x.here ∧ P (us ++ vs) a

/-- A reader of phrases that could go on wherever it refuses. -/
structure Reads (r : Reader α) (P : Phrase α) : Prop where
  sound : Sound r P
  viable : Viable r P
  inhabited : ∃ us a, P us a

/-- Such a phrase is read whole, and nothing beyond it, before a token of an allowed kind. -/
def Complete (follow : Token.Kind → Prop) (r : Reader α) (P : Phrase α) : Prop :=
  ∀ us a rest, P us a → follow (peek rest) → r.run (us ++ rest) = ⟨.ok a, rest⟩

/-- A phrase, and after it one that depends on what the first stands for. -/
def Seq (P : Phrase α) (Q : α → Phrase β) : Phrase β :=
  fun us b => ∃ vs ws a, us = vs ++ ws ∧ P vs a ∧ Q a ws b

/-- A single token. -/
def Single (p : Token → α → Prop) : Phrase α :=
  fun us a => ∃ t, us = [t] ∧ p t a

theorem bind_ok (h : ((r >>= f).run ts).outcome = .ok b) :
    ∃ a, (r.run ts).outcome = .ok a ∧ (r >>= f).run ts = (f a).run (r.run ts).rest := by
  rw [run_bind, Step.andThen] at h
  cases ho : (r.run ts).outcome with
  | ok a => exact ⟨a, rfl, by rw [run_bind, Step.andThen, ho]⟩
  | error x => simp [ho] at h

theorem bind_error (h : ((r >>= f).run ts).outcome = .error x) :
    (r.run ts).outcome = .error x ∨
      ∃ a, (r.run ts).outcome = .ok a ∧ (r >>= f).run ts = (f a).run (r.run ts).rest := by
  rw [run_bind, Step.andThen] at h
  cases ho : (r.run ts).outcome with
  | ok a => exact Or.inr ⟨a, rfl, by rw [run_bind, Step.andThen, ho]⟩
  | error y => exact Or.inl (by simpa [ho] using h)

theorem run_bind_of_run (h : r.run ts = ⟨.ok a, rest⟩) : (r >>= f).run ts = (f a).run rest := by
  rw [run_bind, h, Step.andThen]

theorem map_eq_ok {g : α → β} {s : Step α} (h : (s.map g).outcome = .ok b) :
    ∃ a, s.outcome = .ok a ∧ g a = b := by
  cases ho : s.outcome with
  | ok a =>
    simp only [Step.map, ho, Except.map, Except.ok.injEq] at h
    exact ⟨a, rfl, h⟩
  | error x => simp [Step.map, ho, Except.map] at h

theorem map_eq_error {g : α → β} {s : Step α} (h : (s.map g).outcome = .error x) :
    s.outcome = .error x := by
  cases ho : s.outcome with
  | ok a => simp [Step.map, ho, Except.map] at h
  | error y => simpa [Step.map, ho, Except.map] using h

theorem sound_mono (hr : Sound r P) (hp : ∀ us a, P us a → P' us a) : Sound r P' := by
  intro ts a h
  obtain ⟨us, hts, hus⟩ := hr ts a h
  exact ⟨us, hts, hp us a hus⟩

theorem sound_pure : Sound (pure a) (fun us b => us = [] ∧ b = a) := by
  intro ts b h
  cases h
  exact ⟨[], rfl, rfl, rfl⟩

theorem sound_bind (hr : Sound r P) (hf : ∀ a, Sound (f a) (Q a)) :
    Sound (r >>= f) (Seq P Q) := by
  intro ts b h
  obtain ⟨a, ha, hrun⟩ := bind_ok h
  rw [hrun] at h ⊢
  obtain ⟨vs, hvs, hp⟩ := hr ts a ha
  obtain ⟨ws, hws, hq⟩ := hf a _ b h
  refine ⟨vs ++ ws, ?_, vs, ws, a, rfl, hp, hq⟩
  rw [List.append_assoc, ← hws]
  exact hvs

theorem sound_token {missing : SyntaxError.Cause} {g : Token → Except SyntaxError.Cause α} :
    Sound (token missing g) (Single fun t a => g t = .ok a) := by
  intro ts a h
  cases ts with
  | nil => simp [token] at h
  | cons t ts =>
    cases hg : g t with
    | ok b =>
      simp only [token, hg, Except.ok.injEq] at h ⊢
      subst h
      exact ⟨[t], rfl, t, rfl, hg⟩
    | error c => simp [token, hg] at h

theorem sound_expect {kind : Token.Kind} {what : String} :
    Sound (expect kind what) (Single fun t u => t.kind = kind ∧ u = t) := by
  refine sound_mono sound_token ?_
  rintro us u ⟨t, rfl, ht⟩
  split at ht
  · cases ht
    exact ⟨u, rfl, ‹_›, rfl⟩
  · cases ht

theorem sound_accept {kind : Token.Kind} (hk : kind ≠ .finish) :
    Sound (accept kind) (fun us b =>
      us = [] ∧ b = false ∨ ∃ t, us = [t] ∧ t.kind = kind ∧ b = true) := by
  intro ts b h
  simp only [accept] at h ⊢
  split at h
  · cases h
    cases ts with
    | nil => exact (hk (Eq.symm ‹_›)).elim
    | cons t ts => exact ⟨[t], by simp [*], Or.inr ⟨t, rfl, ‹_›, rfl⟩⟩
  · cases h
    exact ⟨[], by simp [*], Or.inl ⟨rfl, rfl⟩⟩

theorem sound_require {p : Token.Kind → Bool} {what : String} :
    Sound (require p what) (fun us _ => us = []) := by
  intro ts b h
  refine ⟨[], ?_, rfl⟩
  simp only [require] at h ⊢
  split at h
  · simp [*]
  · cases h

theorem sound_primary : Sound primary (Single Primary) :=
  sound_mono sound_token fun _ _ ⟨t, hus, ht⟩ => ⟨t, hus, primary_iff.mpr ht⟩

theorem unaryRun_bang (h : t.kind = .bang) :
    unaryRun (t :: ts) = (unaryRun ts).map (.not · t.line) := by
  rw [unaryRun, if_pos h]

theorem unaryRun_primary (h : peek ts ≠ .bang) : unaryRun ts = primary.run ts := by
  cases ts with
  | nil => rw [unaryRun]
  | cons t ts => rw [unaryRun, if_neg (show ¬ t.kind = .bang from h)]

theorem sound_unary : Sound unary Unary := by
  intro ts
  induction ts with
  | nil =>
    intro e h
    obtain ⟨us, hus, t, rfl, _⟩ := sound_primary [] e h
    simp at hus
  | cons t ts ih =>
    intro e h
    by_cases ht : t.kind = .bang
    · simp only [unary, unaryRun_bang ht] at h ih ⊢
      obtain ⟨operand, ho, rfl⟩ := map_eq_ok h
      obtain ⟨us, hus, hu⟩ := ih operand ho
      exact ⟨t :: us, congrArg (t :: ·) hus, .not ht hu⟩
    · simp only [unary, unaryRun_primary (show peek (t :: ts) ≠ .bang from ht)] at h ⊢
      obtain ⟨us, hus, u, rfl, hp⟩ := sound_primary _ e h
      exact ⟨[u], hus, .primary hp⟩

theorem operatorIn?_eq_some {op : Operator} : operatorIn? tier t = some op ↔ Joins tier t.kind op := by
  rw [operatorIn?, Option.filter_eq_some_iff, joins_iff]
  simp

theorem extend_stop (h : ∀ op, ¬ Joins tier (peek ts) op) :
    extend tier next left ts = ⟨.ok left, ts⟩ := by
  cases ts with
  | nil => rw [extend]
  | cons t ts =>
    have hop : operatorIn? tier t = none := by
      rw [Option.eq_none_iff_forall_not_mem]
      intro op hop
      exact h op (operatorIn?_eq_some.mp hop)
    rw [extend, hop]

theorem extend_error {op : Operator} (hj : Joins tier t.kind op)
    (h : next.run ts = ⟨.error x, rest⟩) :
    extend tier next left (t :: ts) = ⟨.error x, rest⟩ := by
  rw [extend, operatorIn?_eq_some.mpr hj]
  simp only [h]

theorem extend_zero (hj : Joins tier t.kind .div) (h : next.run ts = ⟨.ok e, rest⟩)
    (hz : e.isZeroLiteral = true) :
    extend tier next left (t :: ts) = ⟨.error ⟨.divisionByZero, ts⟩, rest⟩ := by
  rw [extend, operatorIn?_eq_some.mpr hj]
  simp only [h, hz, and_self, if_true]

theorem extend_join {op : Operator} (hj : Joins tier t.kind op) (h : next.run ts = ⟨.ok e, rest⟩)
    (hz : ¬ (op = .div ∧ e.isZeroLiteral = true)) :
    extend tier next left (t :: ts) = extend tier next (.binary left op e t.line) rest := by
  rw [extend, operatorIn?_eq_some.mpr hj]
  simp only [h, if_neg hz]

/-- A chain of which the left end has been read, taken apart from there. -/
inductive Tail (tier : Tier) (Next : Phrase Expr) : Expr → Phrase Expr where
  | nil {left : Expr} : Tail tier Next left [] left
  | cons {left right e : Expr} {t : Token} {op : Operator} {vs ws : List Token} :
      Joins tier t.kind op → Next vs right → ¬ (op = .div ∧ ZeroLiteral right) →
      Tail tier Next (.binary left op right t.line) ws e →
      Tail tier Next left (t :: (vs ++ ws)) e

theorem tail_join {op : Operator} {right : Expr} (h : Tail tier Next left ws e)
    (hj : Joins tier t.kind op) (hv : Next vs right) (hz : ¬ (op = .div ∧ ZeroLiteral right)) :
    Tail tier Next left (ws ++ t :: vs) (.binary e op right t.line) := by
  induction h with
  | nil => simpa using Tail.cons hj hv hz .nil
  | cons hj' hv' hz' _ ih => simpa using Tail.cons hj' hv' hz' ih

theorem chain_tail (hc : Chain tier Next us left) (h : Tail tier Next left ws e) :
    Chain tier Next (us ++ ws) e := by
  induction h generalizing us with
  | nil => simpa using hc
  | cons hj hv hz _ ih => simpa using ih (.join hc hj hv hz)

/-- A chain is its first operand and a tail. -/
theorem chain_iff : Chain tier Next us e ↔ Seq Next (Tail tier Next) us e := by
  constructor
  · intro h
    induction h with
    | @operand us e h => exact ⟨us, [], e, by simp, h, .nil⟩
    | join _ hj hv hz ih =>
      obtain ⟨vs, ws, first, rfl, hf, ht⟩ := ih
      exact ⟨vs, _, first, List.append_assoc _ _ _, hf, tail_join ht hj hv hz⟩
  · rintro ⟨vs, ws, first, rfl, hf, ht⟩
    exact chain_tail (.operand hf) ht

theorem sound_extend (hn : Sound next Next) :
    Sound ⟨extend tier next left, extend_suffix tier next left⟩ (Tail tier Next left) := by
  intro ts e h
  simp only at h ⊢
  fun_induction extend tier next left ts with
  | case1 left =>
    cases h
    exact ⟨[], rfl, .nil⟩
  | case2 left t ts hop =>
    cases h
    exact ⟨[], rfl, .nil⟩
  | case3 left t ts op hop right x hx => cases h
  | case4 left t ts op hop right operand hx hz => cases h
  | case5 left t ts op hop right operand hx hz ih =>
    obtain ⟨ws, hws, ht⟩ := ih h
    obtain ⟨vs, hvs, hv⟩ := hn ts operand hx
    refine ⟨t :: (vs ++ ws), ?_, .cons (operatorIn?_eq_some.mp hop) hv ?_ ht⟩
    · rw [List.cons_append, List.append_assoc, ← hws]
      exact congrArg (t :: ·) hvs
    · rwa [zeroLiteral_iff]

theorem sound_chain (hn : Sound next Next) : Sound (chain tier next) (Chain tier Next) :=
  sound_mono (sound_bind hn fun _ => sound_extend hn) fun _ _ => chain_iff.mpr

theorem sound_expression : Sound expression Expression :=
  sound_chain (sound_chain (sound_chain (sound_chain sound_unary)))

theorem sound_mutability : Sound (accept .mutWord) Mutability := by
  refine sound_mono (sound_accept (by decide)) ?_
  rintro us b (⟨rfl, rfl⟩ | ⟨t, rfl, ht, rfl⟩)
  · exact .absent
  · exact .present ht

theorem sound_typeName : Sound typeName Annotation := by
  intro ts type h
  obtain ⟨b, hb, hrun⟩ := bind_ok h
  obtain ⟨us, hus, hc⟩ := sound_accept (by decide) ts b hb
  simp only [typeName, hrun] at h ⊢
  rcases hc with ⟨rfl, rfl⟩ | ⟨t, rfl, ht, rfl⟩
  · cases h
    exact ⟨[], hus, .absent⟩
  · obtain ⟨vs, hvs, _, _, u, rfl, ⟨_, rfl, hu, rfl⟩, rfl, rfl⟩ :=
      sound_bind sound_expect (fun _ => sound_pure) _ type h
    refine ⟨[t, u], ?_, .present ht hu⟩
    calc ts = [t] ++ ((accept .colon).run ts).rest := hus
      _ = _ := congrArg ([t] ++ ·) hvs

theorem reads_mono (hr : Reads r P) (hp : ∀ us a, P us a → P' us a) : Reads r P' := by
  refine ⟨sound_mono hr.sound hp, ?_, ?_⟩
  · intro ts x h
    obtain ⟨us, vs, a, hts, hus⟩ := hr.viable ts x h
    exact ⟨us, vs, a, hts, hp _ a hus⟩
  · obtain ⟨us, a, hus⟩ := hr.inhabited
    exact ⟨us, a, hp us a hus⟩

theorem reads_pure : Reads (pure a) (fun us b => us = [] ∧ b = a) := by
  refine ⟨sound_pure, ?_, [], a, rfl, rfl⟩
  intro ts x h
  cases h

theorem reads_bind (hr : Reads r P) (hf : ∀ a, Reads (f a) (Q a)) :
    Reads (r >>= f) (Seq P Q) := by
  refine ⟨sound_bind hr.sound fun a => (hf a).sound, ?_, ?_⟩
  · intro ts x h
    rcases bind_error h with hx | ⟨a, ha, hrun⟩
    · obtain ⟨us, vs, a, hts, hp⟩ := hr.viable ts x hx
      obtain ⟨ws, b, hq⟩ := (hf a).inhabited
      exact ⟨us, vs ++ ws, b, hts, us ++ vs, ws, a, by rw [List.append_assoc], hp, hq⟩
    · obtain ⟨us, hus, hp⟩ := hr.sound ts a ha
      rw [hrun] at h
      obtain ⟨vs, ws, b, hvs, hq⟩ := (hf a).viable _ x h
      refine ⟨us ++ vs, ws, b, ?_, us, vs ++ ws, a, List.append_assoc _ _ _, hp, hq⟩
      rw [List.append_assoc, ← hvs]
      exact hus
  · obtain ⟨us, a, hp⟩ := hr.inhabited
    obtain ⟨vs, b, hq⟩ := (hf a).inhabited
    exact ⟨us ++ vs, b, us, vs, a, rfl, hp, hq⟩

theorem viable_token {missing : SyntaxError.Cause} {g : Token → Except SyntaxError.Cause α}
    (h : P [t] a) : Viable (token missing g) P := by
  intro ts x hx
  refine ⟨[], [t], a, ?_, h⟩
  cases ts with
  | nil =>
    cases hx
    rfl
  | cons u ts =>
    cases hu : g u with
    | ok b => simp [token, hu] at hx
    | error c =>
      simp only [token, hu] at hx
      cases hx
      rfl

theorem reads_expect (kind : Token.Kind) (what : String) :
    Reads (expect kind what) (Single fun t u => t.kind = kind ∧ u = t) := by
  have h : Single (fun t u => t.kind = kind ∧ u = t) [⟨kind, "", 1⟩] ⟨kind, "", 1⟩ :=
    ⟨_, rfl, rfl, rfl⟩
  exact ⟨sound_expect, viable_token h, _, _, h⟩

theorem accept_ne_error {kind : Token.Kind} : ((accept kind).run ts).outcome ≠ .error x := by
  simp only [accept]
  split <;> simp

theorem reads_mutability : Reads (accept .mutWord) Mutability :=
  ⟨sound_mutability, fun _ _ h => (accept_ne_error h).elim, [], false, .absent⟩

theorem reads_require {p : Token.Kind → Bool} {what : String} :
    Reads (require p what) (fun us _ => us = []) := by
  refine ⟨sound_require, ?_, [], (), rfl⟩
  intro ts x h
  refine ⟨[], [], (), ?_, rfl⟩
  simp only [require] at h
  split at h <;> cases h
  rfl

/-- An operand for every gap. -/
def filler : Token := ⟨.identifier, "x", 1⟩

theorem primary_filler : Primary filler (.reference "x" 1) := .identifier rfl

theorem reads_primary : Reads primary (Single Primary) := by
  have h : Single Primary [filler] (.reference "x" 1) := ⟨filler, rfl, primary_filler⟩
  exact ⟨sound_primary, viable_token h, _, _, h⟩

theorem reads_typeName : Reads typeName Annotation := by
  refine ⟨sound_typeName, ?_, [], none, .absent⟩
  intro ts x h
  rcases bind_error h with hx | ⟨b, hb, hrun⟩
  · exact (accept_ne_error hx).elim
  · obtain ⟨us, hus, ⟨rfl, rfl⟩ | ⟨t, rfl, ht, rfl⟩⟩ := sound_accept (by decide) ts b hb
    · rw [typeName, hrun] at h
      cases h
    · rw [typeName, hrun] at h
      obtain ⟨vs, ws, type, hvs, _, _, u, hu, ⟨_, rfl, hk, rfl⟩, rfl, rfl⟩ :=
        (reads_bind (reads_expect .identifier "expected type")
          fun _ => reads_pure).viable _ x h
      refine ⟨t :: vs, ws, some u.lexeme, hus.trans (congrArg (t :: ·) hvs), ?_⟩
      rw [List.cons_append, hu]
      exact .present ht hk

theorem reads_declaration : Reads declaration Declaration := by
  refine reads_mono (reads_bind (reads_expect _ _) fun _ =>
    reads_bind reads_mutability fun _ => reads_bind (reads_expect _ _) fun _ =>
    reads_bind reads_typeName fun _ => reads_bind (reads_expect _ _) fun _ =>
    reads_bind reads_require fun _ => reads_bind reads_primary fun _ =>
    reads_bind (reads_expect _ _) fun _ => reads_pure) ?_
  rintro us e ⟨_, _, start, rfl, ⟨_, rfl, hs, rfl⟩, _, _, _, rfl, hm, _, _, name, rfl,
    ⟨_, rfl, hn, rfl⟩, _, _, _, rfl, ha, _, _, assign, rfl, ⟨_, rfl, he, rfl⟩, _, _, _, rfl, rfl,
    _, _, _, rfl, ⟨value, rfl, hv⟩, _, _, close, rfl, ⟨_, rfl, hc, rfl⟩, rfl, rfl⟩
  simpa using Declaration.intro hs hm hn ha he hv hc

theorem complete_primary : Complete (fun _ => True) primary (Single Primary) := by
  rintro us e rest ⟨t, rfl, ht⟩ _
  simp [primary, token, primary_iff.mp ht]

theorem complete_unary : Complete (fun _ => True) unary Unary := by
  intro us e rest h hf
  induction h with
  | @primary t e hp =>
    have ht : t.kind ≠ .bang := by
      intro hk
      have := primary_kind hp
      simp [hk, Token.Kind.isOperand] at this
    simpa [unary, unaryRun, ht] using complete_primary [t] e rest ⟨t, rfl, hp⟩ hf
  | not ht _ ih =>
    have hrun : unaryRun _ = _ := ih
    simp [unary, unaryRun, ht, hrun, Step.map, Except.map]

theorem tail_follow (hj : ∀ k op, Joins tier k op → follow k) (h : Tail tier Next left ws e)
    (hf : follow (peek rest)) : follow (peek (ws ++ rest)) := by
  cases h with
  | nil => exact hf
  | cons hk => exact hj _ _ hk

theorem complete_extend (hn : Complete follow next Next) (hj : ∀ k op, Joins tier k op → follow k) :
    Complete (fun k => follow k ∧ ∀ op, ¬ Joins tier k op)
      ⟨extend tier next left, extend_suffix tier next left⟩ (Tail tier Next left) := by
  rintro ws e rest h ⟨hf, hstop⟩
  simp only
  induction h with
  | nil => exact extend_stop hstop
  | @cons left right e t op vs ws hk hv hz ht ih =>
    have hrun := hn vs right (ws ++ rest) hv (tail_follow hj ht hf)
    rw [zeroLiteral_iff] at hz
    rw [List.cons_append, List.append_assoc, extend_join hk hrun hz]
    exact ih

theorem complete_chain (hn : Complete follow next Next) (hj : ∀ k op, Joins tier k op → follow k) :
    Complete (fun k => follow k ∧ ∀ op, ¬ Joins tier k op) (chain tier next) (Chain tier Next) := by
  intro us e rest h hf
  obtain ⟨vs, ws, first, rfl, hv, ht⟩ := chain_iff.mp h
  rw [List.append_assoc, chain]
  exact (run_bind_of_run (hn vs first _ hv (tail_follow hj ht hf.1))).trans
    (complete_extend hn hj ws e rest ht hf)

/-- An expression is read whole before any token that is no operator. -/
theorem complete_expression :
    Complete (fun k => ∀ tier op, ¬ Joins tier k op) expression Expression := by
  have apart : ∀ {tier tier' : Tier}, tier ≠ tier' → ∀ k op, Joins tier k op →
      ∀ op', ¬ Joins tier' k op' :=
    fun hne k op h op' h' => hne (joins_tier_unique h h')
  have hf : Complete _ factor Factor := complete_chain complete_unary fun _ _ _ => trivial
  have ht : Complete _ term Term := complete_chain hf fun k op h =>
    ⟨trivial, apart (by decide) k op h⟩
  have hc : Complete _ comparison Comparison := complete_chain ht fun k op h =>
    ⟨⟨trivial, apart (by decide) k op h⟩, apart (by decide) k op h⟩
  have he : Complete _ equality Equality := complete_chain hc fun k op h =>
    ⟨⟨⟨trivial, apart (by decide) k op h⟩, apart (by decide) k op h⟩, apart (by decide) k op h⟩
  intro us e rest h hk
  exact he us e rest h ⟨⟨⟨⟨trivial, hk _⟩, hk _⟩, hk _⟩, hk _⟩

theorem complete_declaration : Complete (fun _ => True) declaration Declaration := by
  rintro us e rest h -
  cases h with
  | intro hs hm hn ha he hv hc =>
    have hk := primary_kind hv
    rw [primary_iff] at hv
    cases hm <;> cases ha <;>
      simp_all [declaration, typeName, expect, accept, require, primary, token, peek, Step.andThen]

end Scriptlet.Reader
