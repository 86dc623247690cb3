import Scriptlet.Evaluator
import Scriptlet.Proofs.Lookahead

/-!
Lines are carried along and never looked at. Lists of tokens that differ only in their lines are
read alike, and programs that differ only in their lines are evaluated alike, whatever relation
holds between the lines.
-/

namespace Scriptlet

/-- Two results of the same kind, with related values or related errors. -/
inductive Matches {ε ε' α β : Type} (E : ε → ε' → Prop) (V : α → β → Prop) :
    Except ε α → Except ε' β → Prop where
  | ok {a : α} {b : β} : V a b → Matches E V (.ok a) (.ok b)
  | error {x : ε} {y : ε'} : E x y → Matches E V (.error x) (.error y)

theorem Matches.of_ok {ε ε' α β : Type} {E : ε → ε' → Prop} {V : α → β → Prop} {x : Except ε α}
    {y : Except ε' β} {a : α} (h : Matches E V x y) (hx : x = .ok a) : ∃ b, y = .ok b ∧ V a b := by
  subst hx
  cases h with
  | ok hv => exact ⟨_, rfl, hv⟩

theorem Matches.of_error {ε ε' α β : Type} {E : ε → ε' → Prop} {V : α → β → Prop} {x : Except ε α}
    {y : Except ε' β} {e : ε} (h : Matches E V x y) (hx : x = .error e) :
    ∃ e', y = .error e' ∧ E e e' := by
  subst hx
  cases h with
  | error he => exact ⟨_, rfl, he⟩

theorem Matches.imp {ε ε' α β : Type} {E E' : ε → ε' → Prop} {V : α → β → Prop} {x : Except ε α}
    {y : Except ε' β} (h : Matches E V x y) (he : ∀ e e', E e e' → E' e e') : Matches E' V x y := by
  cases h with
  | ok hv => exact .ok hv
  | error hx => exact .error (he _ _ hx)

structure Token.Alike (R : Nat → Nat → Prop) (t u : Token) : Prop where
  kind : t.kind = u.kind
  lexeme : t.lexeme = u.lexeme
  line : R t.line u.line

inductive Expr.Alike (R : Nat → Nat → Prop) : Expr → Expr → Prop where
  | literal {value : Literal} {m n : Nat} : R m n → Alike R (.literal value m) (.literal value n)
  | reference {name : String} {m n : Nat} : R m n → Alike R (.reference name m) (.reference name n)
  | declare {name : String} {isMutable : Bool} {type : Option String} {initial initial' : Expr}
      {m n : Nat} : Alike R initial initial' → R m n →
      Alike R (.declare name isMutable type initial m) (.declare name isMutable type initial' n)
  | not {operand operand' : Expr} {m n : Nat} : Alike R operand operand' → R m n →
      Alike R (.not operand m) (.not operand' n)
  | binary {left left' right right' : Expr} {op : Operator} {m n : Nat} : Alike R left left' →
      Alike R right right' → R m n → Alike R (.binary left op right m) (.binary left' op right' n)

inductive TypeError.Alike (R : Nat → Nat → Prop) : TypeError → TypeError → Prop where
  | raised {cause : TypeError.Cause} {m n : Nat} : R m n →
      Alike R (.raised cause m) (.raised cause n)
  | operand {inner inner' : TypeError} {m n : Nat} : Alike R inner inner' → R m n →
      Alike R (.operand inner m) (.operand inner' n)

structure Refusal.Alike (R : Nat → Nat → Prop) (x y : Refusal) : Prop where
  cause : x.cause = y.cause
  here : List.Forall₂ (Token.Alike R) x.here y.here

structure Step.Alike {α β : Type} (R : Nat → Nat → Prop) (V : α → β → Prop) (s : Step α)
    (s' : Step β) : Prop where
  outcome : Matches (Refusal.Alike R) V s.outcome s'.outcome
  rest : List.Forall₂ (Token.Alike R) s.rest s'.rest

variable {α β γ δ : Type} {R : Nat → Nat → Prop} {V : α → β → Prop} {W : γ → δ → Prop}
  {ts us : List Token} {t u : Token} {e e' left left' : Expr} {line line' : Nat}

theorem Expr.Alike.line_rel (h : Expr.Alike R e e') : R e.line e'.line := by
  cases h <;> assumption

theorem Expr.Alike.isZeroLiteral_eq (h : Expr.Alike R e e') :
    e.isZeroLiteral = e'.isZeroLiteral := by
  cases h <;> rfl

theorem Expr.Alike.isDeclaration_eq (h : Expr.Alike R e e') :
    e.isDeclaration = e'.isDeclaration := by
  cases h <;> rfl

theorem TypeError.Alike.line_rel {x y : TypeError} (h : TypeError.Alike R x y) :
    R x.line y.line := by
  cases h <;> assumption

theorem TypeError.Alike.description_eq {x y : TypeError} (h : TypeError.Alike R x y) :
    x.description = y.description := by
  cases h <;> rfl

namespace Step

variable {s : Step α} {s' : Step β}

theorem Alike.ok {a : α} (h : Step.Alike R V s s') (ha : s.outcome = .ok a) :
    ∃ b, s' = ⟨.ok b, s'.rest⟩ ∧ V a b := by
  obtain ⟨b, hb, hv⟩ := h.outcome.of_ok ha
  exact ⟨b, by rw [← hb], hv⟩

theorem Alike.error {x : Refusal} (h : Step.Alike R V s s') (hx : s.outcome = .error x) :
    ∃ y, s' = ⟨.error y, s'.rest⟩ ∧ Refusal.Alike R x y := by
  obtain ⟨y, hy, hxy⟩ := h.outcome.of_error hx
  exact ⟨y, by rw [← hy], hxy⟩

theorem Alike.map {f : α → γ} {g : β → δ} (h : Step.Alike R V s s')
    (hfg : ∀ a b, V a b → W (f a) (g b)) : Step.Alike R W (s.map f) (s'.map g) := by
  obtain ⟨outcome, rest⟩ := s
  obtain ⟨outcome', rest'⟩ := s'
  obtain ⟨ho, hr⟩ := h
  refine ⟨?_, hr⟩
  cases ho with
  | ok hv => exact .ok (hfg _ _ hv)
  | error hx => exact .error hx

end Step

namespace Reader

/-- Two readers that answer alike on lists that are alike. -/
def Uniform (R : Nat → Nat → Prop) (V : α → β → Prop) (r : Reader α) (r' : Reader β) : Prop :=
  ∀ ts us, List.Forall₂ (Token.Alike R) ts us → Step.Alike R V (r.run ts) (r'.run us)

theorem peek_alike (h : List.Forall₂ (Token.Alike R) ts us) : peek ts = peek us := by
  cases h with
  | nil => rfl
  | cons ht _ => exact ht.kind

theorem uniform_pure {a : α} {b : β} (h : V a b) : Uniform R V (pure a) (pure b) :=
  fun _ _ hts => ⟨.ok h, hts⟩

theorem uniform_bind {r : Reader α} {r' : Reader β} {f : α → Reader γ} {f' : β → Reader δ}
    (hr : Uniform R V r r') (hf : ∀ a b, V a b → Uniform R W (f a) (f' b)) :
    Uniform R W (r >>= f) (r' >>= f') := by
  intro ts us h
  obtain ⟨ho, hrest⟩ := hr ts us h
  simp only [run_bind, Step.andThen]
  generalize (r.run ts).outcome = x at ho
  generalize (r'.run us).outcome = y at ho
  cases ho with
  | ok hv => exact hf _ _ hv _ _ hrest
  | error hx => exact ⟨.error hx, hrest⟩

theorem uniform_token {missing : SyntaxError.Cause} {f : Token → Except SyntaxError.Cause α}
    {g : Token → Except SyntaxError.Cause β}
    (h : ∀ t u, Token.Alike R t u → Matches Eq V (f t) (g u)) :
    Uniform R V (token missing f) (token missing g) := by
  intro ts us hts
  cases hts with
  | nil => exact ⟨.error ⟨rfl, .nil⟩, .nil⟩
  | @cons t u ts us ht hts =>
    have hm := h t u ht
    simp only [token]
    generalize f t = x at hm
    generalize g u = y at hm
    cases hm with
    | ok hv => exact ⟨.ok hv, hts⟩
    | error hx => exact ⟨.error ⟨hx, .cons ht hts⟩, .cons ht hts⟩

theorem uniform_expect {kind : Token.Kind} {what : String} :
    Uniform R (Token.Alike R) (expect kind what) (expect kind what) := by
  apply uniform_token
  intro t u h
  rw [← h.kind]
  split
  · exact .ok h
  · exact .error rfl

theorem uniform_accept {kind : Token.Kind} : Uniform R Eq (accept kind) (accept kind) := by
  intro ts us h
  simp only [accept, ← peek_alike h]
  split
  · refine ⟨.ok rfl, ?_⟩
    cases h with
    | nil => exact .nil
    | cons _ h => exact h
  · exact ⟨.ok rfl, h⟩

theorem uniform_require {p : Token.Kind → Bool} {what : String} :
    Uniform R Eq (require p what) (require p what) := by
  intro ts us h
  simp only [require, ← peek_alike h]
  split
  · exact ⟨.ok rfl, h⟩
  · exact ⟨.error ⟨rfl, h⟩, h⟩

theorem operand_alike (h : Token.Alike R t u) : Matches Eq (Expr.Alike R) t.operand u.operand := by
  simp only [Token.operand, ← h.kind, ← h.lexeme]
  split
  · exact .ok (.literal h.line)
  · split
    · exact .ok (.literal h.line)
    · exact .error rfl
  · split
    · exact .ok (.literal h.line)
    · exact .error rfl
  · split
    · exact .ok (.literal h.line)
    · exact .error rfl
  · exact .ok (.literal h.line)
  · exact .ok (.literal h.line)
  · exact .ok (.reference h.line)
  · exact .error rfl

theorem uniform_primary : Uniform R (Expr.Alike R) primary primary :=
  uniform_token fun _ _ => operand_alike

theorem uniform_unary : Uniform R (Expr.Alike R) unary unary := by
  intro ts us h
  simp only [unary]
  induction h with
  | nil => exact uniform_primary [] [] .nil
  | @cons t u ts us ht hts ih =>
    by_cases hk : t.kind = .bang
    · rw [unaryRun_bang hk, unaryRun_bang (ht.kind ▸ hk)]
      exact ih.map fun _ _ he => .not he ht.line
    · rw [unaryRun_primary (show peek (t :: ts) ≠ .bang from hk),
        unaryRun_primary (show peek (u :: us) ≠ .bang from fun hu => hk (ht.kind.trans hu))]
      exact uniform_primary _ _ (.cons ht hts)

theorem operatorIn?_alike {tier : Tier} (h : Token.Alike R t u) :
    operatorIn? tier t = operatorIn? tier u := by
  rw [operatorIn?, operatorIn?, h.kind]

theorem extend_alike {tier : Tier} {next : Reader Expr} (hn : Uniform R (Expr.Alike R) next next) :
    ∀ left' us, Expr.Alike R left left' → List.Forall₂ (Token.Alike R) ts us →
      Step.Alike R (Expr.Alike R) (extend tier next left ts) (extend tier next left' us) := by
  -- The induction follows the first list, and the second is taken apart alongside.
  fun_induction extend tier next left ts with
  | case1 left =>
    intro left' us hl h
    cases h
    rw [extend]
    exact ⟨.ok hl, .nil⟩
  | case2 left t ts hop =>
    intro left' us hl h
    cases h with
    | cons ht hts =>
      rw [operatorIn?_alike ht] at hop
      rw [extend, hop]
      exact ⟨.ok hl, .cons ht hts⟩
  | case3 left t ts op hop right x hx =>
    intro left' us hl h
    cases h with
    | cons ht hts =>
      have hr := hn _ _ hts
      obtain ⟨y, hy, hxy⟩ := hr.error hx
      rw [operatorIn?_alike ht] at hop
      rw [extend_error (operatorIn?_eq_some.mp hop) hy]
      exact ⟨.error hxy, hr.rest⟩
  | case4 left t ts op hop right operand ho hz =>
    intro left' us hl h
    cases h with
    | cons ht hts =>
      have hr := hn _ _ hts
      obtain ⟨operand', ho', he⟩ := hr.ok ho
      rw [operatorIn?_alike ht, hz.1] at hop
      rw [extend_zero (operatorIn?_eq_some.mp hop) ho' (he.isZeroLiteral_eq ▸ hz.2)]
      exact ⟨.error ⟨rfl, hts⟩, hr.rest⟩
  | case5 left t ts op hop right operand ho hz ih =>
    intro left' us hl h
    cases h with
    | cons ht hts =>
      have hr := hn _ _ hts
      obtain ⟨operand', ho', he⟩ := hr.ok ho
      rw [operatorIn?_alike ht] at hop
      rw [extend_join (operatorIn?_eq_some.mp hop) ho' (he.isZeroLiteral_eq ▸ hz)]
      exact ih _ _ (.binary hl he ht.line) hr.rest

theorem uniform_chain {tier : Tier} {next : Reader Expr}
    (hn : Uniform R (Expr.Alike R) next next) :
    Uniform R (Expr.Alike R) (chain tier next) (chain tier next) :=
  uniform_bind hn fun _ _ he _ _ h => extend_alike hn _ _ he h

theorem uniform_expression : Uniform R (Expr.Alike R) expression expression :=
  uniform_chain (uniform_chain (uniform_chain (uniform_chain uniform_unary)))

theorem uniform_typeName : Uniform R Eq typeName typeName := by
  refine uniform_bind uniform_accept ?_
  rintro b _ rfl
  cases b with
  | false => exact uniform_pure rfl
  | true =>
    refine uniform_bind uniform_expect ?_
    intro t u h
    exact uniform_pure (congrArg some h.lexeme)

theorem uniform_declaration : Uniform R (Expr.Alike R) declaration declaration := by
  refine uniform_bind uniform_expect fun _ _ _ => uniform_bind uniform_accept ?_
  rintro isMutable _ rfl
  refine uniform_bind uniform_expect fun name name' hname => uniform_bind uniform_typeName ?_
  rintro type _ rfl
  refine uniform_bind uniform_expect fun _ _ _ => uniform_bind uniform_require fun _ _ _ =>
    uniform_bind uniform_primary fun initial initial' hinitial =>
    uniform_bind uniform_expect fun _ _ _ => uniform_pure ?_
  rw [← hname.lexeme]
  exact .declare hinitial hname.line

theorem uniform_statement : Uniform R (Expr.Alike R) statement statement := by
  intro ts us h
  simp only [statement, ← peek_alike h]
  split
  · exact uniform_declaration ts us h
  · exact uniform_expression ts us h

theorem uniform_separator : Uniform R Eq separator separator := by
  intro ts us h
  simp only [separator, ← peek_alike h]
  split
  · refine ⟨.ok rfl, ?_⟩
    cases h with
    | nil => exact .nil
    | cons _ h => exact h
  · split
    · exact ⟨.ok rfl, h⟩
    · exact ⟨.error ⟨rfl, h⟩, h⟩

theorem uniform_item : Uniform R (Expr.Alike R) item item := by
  refine uniform_bind uniform_statement ?_
  intro e e' he
  rw [← he.isDeclaration_eq]
  split
  · exact uniform_pure he
  · exact uniform_bind uniform_separator fun _ _ _ => uniform_pure he

theorem programRun_alike : ∀ us, List.Forall₂ (Token.Alike R) ts us →
    Step.Alike R (List.Forall₂ (Expr.Alike R)) (programRun ts) (programRun us) := by
  fun_induction programRun ts with
  | case1 =>
    intro us h
    cases h
    rw [programRun_finish rfl]
    exact ⟨.ok .nil, .nil⟩
  | case2 t ts hf =>
    intro us h
    rw [programRun_finish ((peek_alike h).symm.trans hf)]
    exact ⟨.ok .nil, h⟩
  | case3 t ts hf hs ih =>
    intro us h
    cases h with
    | cons ht hts =>
      rw [programRun_semicolon (ht.kind ▸ hs)]
      exact ih _ hts
  | case4 t ts hf hs x hx =>
    intro us h
    have hk : peek us = t.kind := (peek_alike h).symm
    have hi := uniform_item _ _ h
    obtain ⟨y, hy, hxy⟩ := hi.error hx
    rw [programRun_error (hk ▸ hf) (hk ▸ hs) hy]
    exact ⟨.error hxy, hi.rest⟩
  | case5 t ts hf hs e he hlt ih =>
    intro us h
    have hk : peek us = t.kind := (peek_alike h).symm
    have hi := uniform_item _ _ h
    obtain ⟨e', he', hee⟩ := hi.ok he
    rw [programRun_item (hk ▸ hf) (hk ▸ hs) he']
    exact (ih _ hi.rest).map fun _ _ hes => .cons hee hes

end Reader

/-- Lists that are alike are refused at the same index for the same cause. -/
theorem parse_alike (h : List.Forall₂ (Token.Alike R) ts us) :
    Matches (fun e e' => ∃ i cause, e = Token.errorAt ts i cause ∧ e' = Token.errorAt us i cause)
      (List.Forall₂ (Expr.Alike R)) (parse ts) (parse us) := by
  have ho := (Reader.programRun_alike us h).outcome
  simp only [parse, Reader.program]
  generalize (Reader.programRun ts).outcome = x at ho
  generalize (Reader.programRun us).outcome = y at ho
  cases ho with
  | ok hp => exact .ok hp
  | @error x y hx =>
    refine .error ⟨ts.length - x.here.length, x.cause, rfl, ?_⟩
    rw [h.length_eq, hx.here.length_eq, hx.cause]
    rfl

theorem eval_alike {S : Nat → Nat → Prop} (h : Expr.Alike R e e') (hl : S line line') :
    Matches (TypeError.Alike S) Eq (e.eval line) (e'.eval line') := by
  induction h with
  | @literal value =>
    simp only [Expr.eval]
    split
    · exact .ok rfl
    · exact .error (.raised hl)
  | reference => exact .error (.raised hl)
  | declare _ _ ih => exact ih
  | not => exact .error (.raised hl)
  | @binary left left' right right' op _ _ _ _ _ ihl ihr =>
    simp only [Expr.eval]
    generalize left.eval line = x at ihl
    generalize left'.eval line' = y at ihl
    cases ihl with
    | error hx => exact .error (.operand hx hl)
    | @ok l _ hv =>
      subst hv
      generalize right.eval line = x at ihr
      generalize right'.eval line' = y at ihr
      cases ihr with
      | error hx => exact .error (.operand hx hl)
      | @ok r _ hv =>
        subst hv
        simp only [TypeError.atLine]
        cases Value.binary op l r with
        | error cause => exact .error (.raised hl)
        | ok v => exact .ok rfl

theorem continueWith_alike {es es' : List Expr} {last : Value} {s s' : Evaluator}
    (h : List.Forall₂ (Expr.Alike R) es es') :
    Matches (TypeError.Alike R) Eq (Evaluator.continueWith last es s).1
      (Evaluator.continueWith last es' s').1 := by
  induction h generalizing last s s' with
  | nil => exact .ok rfl
  | @cons e e' es es' he _ ih =>
    have hv := eval_alike he he.line_rel
    simp only [Evaluator.continueWith]
    generalize e.eval e.line = x at hv
    generalize e'.eval e'.line = y at hv
    cases hv with
    | error hx => exact .error hx
    | ok hv =>
      subst hv
      exact ih

theorem interpret_alike {es es' : List Expr} (h : List.Forall₂ (Expr.Alike R) es es') :
    Matches (TypeError.Alike R) Eq (interpret es) (interpret es') :=
  continueWith_alike h

end Scriptlet
