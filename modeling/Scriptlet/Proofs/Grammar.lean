import Mathlib
import Scriptlet.Reader.Expression

/-!
The grammar of programs, as relations between lists of tokens and trees. No reader of tokens is
mentioned: operators stand in a table of their own, quotes are taken off by the look of the lexeme
and chains grow at their right end. Only the texts of numbers are left to the numerals.
-/

namespace Scriptlet

/-- The tokens before the first token of the end. -/
def Token.body (ts : List Token) : List Token :=
  ts.takeWhile fun t => t.kind ≠ .finish

/-- Zero of either sign. -/
inductive Binary64.Null : Binary64 → Prop where
  | finite {negative : Bool} {m : Binary64.Magnitude} : m.quanta = 0 → Null (.finite negative m)

theorem Binary64.null_iff {x : Binary64} : x.Null ↔ x.isZero = true := by
  constructor
  · intro h
    cases h with
    | finite hm => exact beq_iff_eq.mpr hm
  · intro h
    cases x with
    | finite negative m => exact .finite (beq_iff_eq.mp h)
    | infinite negative => cases h
    | nan => cases h

namespace Grammar

/-- A relation between the tokens of a phrase and what they stand for. -/
abbrev Phrase (α : Type) := List Token → α → Prop

/-- The operators of each tier with the tokens that stand for them. -/
inductive Joins : Tier → Token.Kind → Operator → Prop where
  | equal : Joins .equality .equal .equal
  | notEqual : Joins .equality .notEqual .notEqual
  | greater : Joins .comparison .greater .greater
  | less : Joins .comparison .less .less
  | greaterEqual : Joins .comparison .greaterEqual .greaterEqual
  | lessEqual : Joins .comparison .lessEqual .lessEqual
  | add : Joins .term .plus .add
  | sub : Joins .term .minus .sub
  | mul : Joins .factor .star .mul
  | div : Joins .factor .slash .div
  | mod : Joins .factor .percent .mod

/-- A literal number equal to zero. -/
inductive ZeroLiteral : Expr → Prop where
  | integer {line : Nat} : ZeroLiteral (.literal (.integer 0) line)
  | float {x : Binary64} {line : Nat} : x.Null → ZeroLiteral (.literal (.float x) line)

/-- A lexeme and the text it quotes: what stands between its two quotes, or the whole of a lexeme
that does not both start and end with a quote of its own. -/
inductive Unquoted (quote : Char) : List Char → List Char → Prop where
  | enclosed {inner : List Char} : Unquoted quote (quote :: (inner ++ [quote])) inner
  | bare {cs : List Char} : (∀ inner, cs ≠ quote :: (inner ++ [quote])) → Unquoted quote cs cs

/-- A single token that is an operand, with its tree. -/
inductive Primary (t : Token) : Expr → Prop where
  | string {text : String} : t.kind = .string → Unquoted '"' t.lexeme.toList text.toList →
      Primary t (.literal (.string text) t.line)
  | integer {n : Int64} : t.kind = .integer → Numeral.int64? t.lexeme = some n →
      Primary t (.literal (.integer n) t.line)
  | float {x : Binary64} : t.kind = .float → Binary64.ofText? t.lexeme = some x →
      Primary t (.literal (.float x) t.line)
  | char {c : Char} : t.kind = .char → Unquoted '\'' t.lexeme.toList [c] →
      Primary t (.literal (.char c) t.line)
  | trueWord : t.kind = .trueWord → Primary t (.literal (.bool true) t.line)
  | falseWord : t.kind = .falseWord → Primary t (.literal (.bool false) t.line)
  | identifier : t.kind = .identifier → Primary t (.reference t.lexeme t.line)

inductive Unary : Phrase Expr where
  | primary {t : Token} {e : Expr} : Primary t e → Unary [t] e
  | not {t : Token} {us : List Token} {e : Expr} : t.kind = .bang → Unary us e →
      Unary (t :: us) (.not e t.line)

/-- Operands of a tighter phrase with the operators of one tier between them. The operator added
last is the root of the tree, and a zero literal never stands on the right of a division. -/
inductive Chain (tier : Tier) (Next : Phrase Expr) : Phrase Expr where
  | operand {us : List Token} {e : Expr} : Next us e → Chain tier Next us e
  | join {us vs : List Token} {t : Token} {op : Operator} {left right : Expr} :
      Chain tier Next us left → Joins tier t.kind op → Next vs right →
      ¬ (op = .div ∧ ZeroLiteral right) →
      Chain tier Next (us ++ t :: vs) (.binary left op right t.line)

def Factor : Phrase Expr := Chain .factor Unary

def Term : Phrase Expr := Chain .term Factor

def Comparison : Phrase Expr := Chain .comparison Term

def Equality : Phrase Expr := Chain .equality Comparison

def Expression : Phrase Expr := Equality

inductive Mutability : Phrase Bool where
  | absent : Mutability [] false
  | present {t : Token} : t.kind = .mutWord → Mutability [t] true

inductive Annotation : Phrase (Option String) where
  | absent : Annotation [] none
  | present {colon type : Token} : colon.kind = .colon → type.kind = .identifier →
      Annotation [colon, type] (some type.lexeme)

inductive Declaration : Phrase Expr where
  | intro {start name assign value close : Token} {us vs : List Token} {isMutable : Bool}
      {type : Option String} {initial : Expr} :
      start.kind = .letWord → Mutability us isMutable → name.kind = .identifier →
      Annotation vs type → assign.kind = .assign → Primary value initial →
      close.kind = .semicolon →
      Declaration (start :: us ++ name :: vs ++ [assign, value, close])
        (.declare name.lexeme isMutable type initial name.line)

/-- A sequence of items. An expression has a semicolon after it or is the last item. -/
inductive Program : Phrase (List Expr) where
  | nil : Program [] []
  | semicolon {t : Token} {us : List Token} {es : List Expr} : t.kind = .semicolon →
      Program us es → Program (t :: us) es
  | declaration {us vs : List Token} {e : Expr} {es : List Expr} : Declaration us e →
      Program vs es → Program (us ++ vs) (e :: es)
  | expression {us vs : List Token} {t : Token} {e : Expr} {es : List Expr} : Expression us e →
      t.kind = .semicolon → Program vs es → Program (us ++ t :: vs) (e :: es)
  | last {us : List Token} {e : Expr} : Expression us e → Program us [e]

variable {tier : Tier} {k : Token.Kind} {op : Operator} {t : Token} {us vs : List Token}
  {e : Expr} {es : List Expr} {Next : Phrase Expr}

theorem joins_iff : Joins tier k op ↔ k.operator? = some op ∧ op.tier = tier := by
  constructor
  · intro h
    cases h <;> exact ⟨rfl, rfl⟩
  · rintro ⟨h, rfl⟩
    cases k <;> cases h <;> constructor

theorem zeroLiteral_iff : ZeroLiteral e ↔ e.isZeroLiteral = true := by
  constructor
  · intro h
    cases h with
    | integer => rfl
    | float hx => exact Binary64.null_iff.mp hx
  · intro h
    cases e with
    | literal value line =>
      cases value with
      | integer n =>
        obtain rfl : n = 0 := by simpa [Expr.isZeroLiteral, Literal.isZero] using h
        exact .integer
      | float x => exact .float (Binary64.null_iff.mpr h)
      | bool b => cases h
      | string s => cases h
      | char c => cases h
    | reference name line => cases h
    | declare name isMutable type initial line => cases h
    | not operand line => cases h
    | binary left op right line => cases h

theorem unquote_enclosed {quote : Char} {text : String} {inner : List Char}
    (h : text.toList = quote :: (inner ++ [quote])) : (unquote quote text).toList = inner := by
  simp [unquote, h]

theorem unquote_bare {quote : Char} {text : String}
    (h : ∀ inner, text.toList ≠ quote :: (inner ++ [quote])) :
    unquote quote text = text := by
  unfold unquote
  split
  · rename_i first inner htext
    rw [if_neg]
    rintro ⟨rfl, hlast⟩
    obtain ⟨ys, rfl⟩ := List.getLast?_eq_some_iff.mp hlast
    exact h ys htext
  · rfl

/-- Quotes are taken off as the look of the lexeme says. -/
theorem unquoted_iff {quote : Char} {text : String} {cs : List Char} :
    Unquoted quote text.toList cs ↔ (unquote quote text).toList = cs := by
  by_cases h : ∃ inner, text.toList = quote :: (inner ++ [quote])
  · obtain ⟨inner, hi⟩ := h
    rw [unquote_enclosed hi, hi]
    constructor
    · intro hq
      generalize hlex : quote :: (inner ++ [quote]) = lexeme at hq
      cases hq with
      | enclosed => exact List.append_cancel_right (List.cons.inj hlex).2
      | bare hb => exact (hb inner hlex.symm).elim
    · rintro rfl
      exact .enclosed
  · rw [not_exists] at h
    rw [unquote_bare h]
    constructor
    · intro hq
      generalize hlex : text.toList = lexeme at hq
      cases hq with
      | enclosed => exact (h _ hlex).elim
      | bare _ => rfl
    · rintro rfl
      exact .bare h

theorem primary_iff : Primary t e ↔ t.operand = .ok e := by
  constructor
  · intro h
    cases h with
    | string hk hq => simp [Token.operand, hk, String.toList_inj.mp (unquoted_iff.mp hq)]
    | integer hk hn => simp [Token.operand, hk, hn]
    | float hk hx => simp [Token.operand, hk, hx]
    | char hk hq => simp [Token.operand, hk, unquoted_iff.mp hq]
    | trueWord hk => simp [Token.operand, hk]
    | falseWord hk => simp [Token.operand, hk]
    | identifier hk => simp [Token.operand, hk]
  · intro h
    unfold Token.operand at h
    split at h
    · cases h; exact .string ‹_› (unquoted_iff.mpr rfl)
    · split at h
      · cases h; exact .integer ‹_› ‹_›
      · cases h
    · split at h
      · cases h; exact .float ‹_› ‹_›
      · cases h
    · split at h
      · cases h; exact .char ‹_› (unquoted_iff.mpr ‹_›)
      · cases h
    · cases h; exact .trueWord ‹_›
    · cases h; exact .falseWord ‹_›
    · cases h; exact .identifier ‹_›
    · cases h

theorem primary_kind (h : Primary t e) : t.kind.isOperand = true := by
  cases h <;> simp_all [Token.Kind.isOperand]

theorem joins_ne_finish (h : Joins tier k op) : k ≠ .finish := by
  cases h <;> decide

theorem joins_tier_unique {tier' : Tier} {op' : Operator} (h : Joins tier k op)
    (h' : Joins tier' k op') : tier = tier' := by
  cases h <;> cases h' <;> rfl

theorem joins_div (h : Joins tier k .div) : k = .slash := by
  cases h
  rfl

theorem not_joins_semicolon (tier : Tier) (op : Operator) : ¬ Joins tier .semicolon op := by
  intro h
  cases h

theorem not_joins_finish (tier : Tier) (op : Operator) : ¬ Joins tier .finish op := by
  intro h
  cases h

theorem chain_induct {p : Phrase Expr} (next : ∀ us e, Next us e → p us e)
    (join : ∀ {tier us vs t op left right}, p us left → Joins tier t.kind op → p vs right →
      p (us ++ t :: vs) (.binary left op right t.line))
    (h : Chain tier Next us e) : p us e := by
  induction h with
  | operand h => exact next _ _ h
  | join _ hj hv _ ih => exact join ih hj (next _ _ hv)

/-- What holds of unary phrases and passes on to two phrases joined by an operator holds of all
expressions, whatever the tiers. -/
theorem expression_induct {p : Phrase Expr} (unary : ∀ us e, Unary us e → p us e)
    (join : ∀ {tier us vs t op left right}, p us left → Joins tier t.kind op → p vs right →
      p (us ++ t :: vs) (.binary left op right t.line))
    (h : Expression us e) : p us e :=
  chain_induct (fun _ _ => chain_induct (fun _ _ => chain_induct (fun _ _ =>
    chain_induct unary join) join) join) join h

/-- The first token of an expression is `!` or an operand. -/
def Starts (us : List Token) : Prop :=
  ∃ t ts, us = t :: ts ∧ (t.kind = .bang ∨ t.kind.isOperand = true)

theorem starts_append (h : Starts us) : Starts (us ++ vs) := by
  obtain ⟨t, ts, rfl, ht⟩ := h
  exact ⟨t, ts ++ vs, rfl, ht⟩

theorem starts_unary (h : Unary us e) : Starts us := by
  cases h with
  | primary hp => exact ⟨_, _, rfl, Or.inr (primary_kind hp)⟩
  | not ht => exact ⟨_, _, rfl, Or.inl ht⟩

theorem starts_expression (h : Expression us e) : Starts us :=
  expression_induct (fun _ _ => starts_unary) (fun hu _ _ => starts_append hu) h

/-- No token of the end is among the tokens. -/
def Endless (us : List Token) : Prop :=
  ∀ t ∈ us, t.kind ≠ .finish

theorem endless_nil : Endless [] := by
  intro t ht
  cases ht

theorem endless_cons : Endless (t :: us) ↔ t.kind ≠ .finish ∧ Endless us :=
  List.forall_mem_cons

theorem endless_append : Endless (us ++ vs) ↔ Endless us ∧ Endless vs :=
  List.forall_mem_append

theorem endless_primary (h : Primary t e) : t.kind ≠ .finish := by
  cases h <;> simp_all

theorem endless_unary (h : Unary us e) : Endless us := by
  induction h with
  | primary hp => exact endless_cons.mpr ⟨endless_primary hp, endless_nil⟩
  | not ht _ ih => exact endless_cons.mpr ⟨by simp [ht], ih⟩

theorem endless_expression (h : Expression us e) : Endless us :=
  expression_induct (fun _ _ => endless_unary)
    (fun hu hj hv => endless_append.mpr ⟨hu, endless_cons.mpr ⟨joins_ne_finish hj, hv⟩⟩) h

theorem endless_declaration (h : Declaration us e) : Endless us := by
  cases h with
  | intro hs hm hn ha he hp hc =>
    have hv := endless_primary hp
    cases hm <;> cases ha <;> simp_all [Endless]

theorem endless_program (h : Program us es) : Endless us := by
  induction h with
  | nil => exact endless_nil
  | semicolon ht _ ih => exact endless_cons.mpr ⟨by simp [ht], ih⟩
  | declaration hd _ ih => exact endless_append.mpr ⟨endless_declaration hd, ih⟩
  | expression he ht _ ih =>
    exact endless_append.mpr ⟨endless_expression he, endless_cons.mpr ⟨by simp [ht], ih⟩⟩
  | last he => exact endless_expression he

theorem unary_not_declaration (h : Unary us e) : e.isDeclaration = false := by
  cases h with
  | primary hp => cases hp <;> rfl
  | not => rfl

theorem expression_not_declaration (h : Expression us e) : e.isDeclaration = false :=
  expression_induct (p := fun _ e => e.isDeclaration = false) (fun _ _ => unary_not_declaration)
    (fun _ _ _ => rfl) h

theorem declaration_isDeclaration (h : Declaration us e) : e.isDeclaration = true := by
  cases h
  rfl

end Grammar

end Scriptlet
