import Scriptlet.Proofs.Refusal
import Scriptlet.Session

/-!
What a refusal complains of. A rule misses something that it names by one of seven texts, or will
not divide by zero, or stands before a token that no operand can be made of. No refusal has another
cause, whichever rule is called for and whatever the tokens are.
-/

namespace Scriptlet

open Grammar

/-- What the rules can miss. -/
def expectations : List String :=
  ["unknown token", "expected let", "expected identifier", "expected type", "expected =",
    "expected expression", "expected ;"]

/-- The causes for which some tokens can be refused. -/
inductive Complaint (ts : List Token) : SyntaxError.Cause → Prop where
  | expected {what : String} : what ∈ expectations → Complaint ts (.expected what)
  | divisionByZero : Complaint ts .divisionByZero
  | operand {t : Token} {cause : SyntaxError.Cause} : t ∈ ts → t.operand = .error cause →
      Complaint ts cause

theorem Complaint.mono {ts us : List Token} {cause : SyntaxError.Cause} (h : Complaint us cause)
    (hs : us ⊆ ts) : Complaint ts cause := by
  cases h with
  | expected hw => exact .expected hw
  | divisionByZero => exact .divisionByZero
  | operand ht ho => exact .operand (hs ht) ho

namespace Reader

variable {α β : Type} {r : Reader α} {f : α → Reader β} {a : α} {ts : List Token} {x : Refusal}
  {left : Expr} {tier : Tier} {next : Reader Expr}

def Blames (r : Reader α) : Prop :=
  ∀ ts x, (r.run ts).outcome = .error x → Complaint ts x.cause

theorem blames_pure : Blames (pure a) := by
  intro ts x h
  cases h

theorem blames_bind (hr : Blames r) (hf : ∀ a, Blames (f a)) : Blames (r >>= f) := by
  intro ts x h
  rcases bind_error h with hx | ⟨a, _, hrun⟩
  · exact hr ts x hx
  · rw [hrun] at h
    exact (hf a _ x h).mono (r.suffix ts).subset

theorem blames_token {missing : SyntaxError.Cause} {g : Token → Except SyntaxError.Cause α}
    (hm : Complaint [] missing) (hg : ∀ t cause, g t = .error cause → Complaint [t] cause) :
    Blames (token missing g) := by
  intro ts x h
  cases ts with
  | nil =>
    cases h
    exact hm
  | cons t ts =>
    cases ht : g t with
    | ok a => simp [token, ht] at h
    | error cause =>
      simp only [token, ht] at h
      cases h
      exact (hg t cause ht).mono (by simp)

theorem blames_expect {kind : Token.Kind} {what : String} (h : what ∈ expectations) :
    Blames (expect kind what) := by
  apply blames_token (.expected h)
  intro t cause ht
  split at ht <;> cases ht
  exact .expected h

theorem blames_primary : Blames primary :=
  blames_token (.expected (by decide)) fun _ _ => .operand (by simp)

theorem blames_accept {kind : Token.Kind} : Blames (accept kind) :=
  fun _ _ h => (accept_ne_error h).elim

theorem blames_require {p : Token.Kind → Bool} {what : String} (h : what ∈ expectations) :
    Blames (require p what) := by
  intro ts x hx
  simp only [require] at hx
  split at hx <;> cases hx
  exact .expected h

theorem blames_unary : Blames unary := by
  intro ts
  induction ts with
  | nil => exact blames_primary []
  | cons t ts ih =>
    intro x h
    by_cases ht : t.kind = .bang
    · simp only [unary, unaryRun_bang ht] at h ih
      exact (ih x (map_eq_error h)).mono (List.subset_cons_self t ts)
    · simp only [unary, unaryRun_primary (show peek (t :: ts) ≠ .bang from ht)] at h
      exact blames_primary _ x h

theorem blames_extend (hn : Blames next) :
    Blames ⟨extend tier next left, extend_suffix tier next left⟩ := by
  intro ts x h
  simp only at h
  fun_induction extend tier next left ts with
  | case1 left => cases h
  | case2 left t ts hop => cases h
  | case3 left t ts op hop right y hy =>
    cases h
    exact (hn ts x hy).mono (List.subset_cons_self t ts)
  | case4 left t ts op hop right e he hz =>
    cases h
    exact .divisionByZero
  | case5 left t ts op hop right e he hz ih =>
    exact (ih h).mono ((next.suffix ts).trans (List.suffix_cons t ts)).subset

theorem blames_chain (hn : Blames next) : Blames (chain tier next) :=
  blames_bind hn fun _ => blames_extend hn

theorem blames_factor : Blames factor := blames_chain blames_unary

theorem blames_term : Blames term := blames_chain blames_factor

theorem blames_comparison : Blames comparison := blames_chain blames_term

theorem blames_equality : Blames equality := blames_chain blames_comparison

theorem blames_typeName : Blames typeName := by
  refine blames_bind blames_accept ?_
  intro b
  cases b with
  | false => exact blames_pure
  | true => exact blames_bind (blames_expect (by decide)) fun _ => blames_pure

theorem blames_declaration : Blames declaration :=
  blames_bind (blames_expect (by decide)) fun _ => blames_bind blames_accept fun _ =>
    blames_bind (blames_expect (by decide)) fun _ => blames_bind blames_typeName fun _ =>
    blames_bind (blames_expect (by decide)) fun _ =>
    blames_bind (blames_require (by decide)) fun _ => blames_bind blames_primary fun _ =>
    blames_bind (blames_expect (by decide)) fun _ => blames_pure

theorem blames_statement : Blames statement := by
  intro ts x h
  simp only [statement] at h
  split at h
  · exact blames_declaration ts x h
  · exact blames_equality ts x h

theorem blames_separator : Blames separator := by
  intro ts x h
  simp only [separator] at h
  split at h
  · cases h
  · split at h <;> cases h
    exact .expected (by decide)

theorem blames_item : Blames item := by
  refine blames_bind blames_statement ?_
  intro e
  split
  · exact blames_pure
  · exact blames_bind blames_separator fun _ => blames_pure

theorem blames_program : Blames program := by
  intro ts x h
  simp only [program] at h
  fun_induction programRun ts with
  | case1 => cases h
  | case2 t ts ht => cases h
  | case3 t ts hf ht ih => exact (ih h).mono (List.subset_cons_self t ts)
  | case4 t ts hf hs y hy =>
    cases h
    exact blames_item (t :: ts) x hy
  | case5 t ts hf hs e he hlt ih =>
    exact (ih (map_eq_error h)).mono (item.suffix (t :: ts)).subset

end Reader

open Reader

theorem Rule.blames (rule : Rule) : Blames rule.reader := by
  cases rule with
  | program => exact blames_bind blames_program fun _ => blames_pure
  | statement => exact blames_bind blames_statement fun _ => blames_pure
  | expression => exact blames_bind blames_equality fun _ => blames_pure
  | equality => exact blames_bind blames_equality fun _ => blames_pure
  | comparison => exact blames_bind blames_comparison fun _ => blames_pure
  | term => exact blames_bind blames_term fun _ => blames_pure
  | factor => exact blames_bind blames_factor fun _ => blames_pure
  | unary => exact blames_bind blames_unary fun _ => blames_pure
  | primary => exact blames_bind blames_primary fun _ => blames_pure

theorem complaint_of_parse {tokens : List Token} {error : SyntaxError}
    (h : parse tokens = .error error) : Complaint tokens error.cause := by
  obtain ⟨x, hx, rfl⟩ := parse_eq_error.mp h
  rw [Refusal.locate, errorAt_cause]
  exact blames_program tokens x hx

/-- Of a token no operand can be made if it is a number or a character that cannot be read, or no
operand's token at all. -/
theorem operand_error {t : Token} {cause : SyntaxError.Cause} (h : t.operand = .error cause) :
    t.kind = .integer ∧ cause = .integerTooLarge ∨ t.kind = .float ∧ cause = .invalidNumber ∨
      t.kind = .char ∧ cause = .invalidChar ∨ cause = .expected "unknown token" := by
  unfold Token.operand at h
  split at h
  · cases h
  · split at h <;> cases h
    exact Or.inl ⟨‹_›, rfl⟩
  · split at h <;> cases h
    exact Or.inr (Or.inl ⟨‹_›, rfl⟩)
  · split at h <;> cases h
    exact Or.inr (Or.inr (Or.inl ⟨‹_›, rfl⟩))
  · cases h
  · cases h
  · cases h
  · cases h
    exact Or.inr (Or.inr (Or.inr rfl))

end Scriptlet
