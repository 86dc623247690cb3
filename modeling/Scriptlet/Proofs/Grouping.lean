import Scriptlet.Proofs.Recognition
import Scriptlet.Session

/-!
Grouping. Reading an expression and writing its tree down in order undo each other: the tokens read
are the marks of the tree, and a tree that is grouped as the tiers ask is read back from its marks.
-/

namespace Scriptlet

open Grammar

/-- What a single token shows in an expression. -/
inductive Sign where
  | literal (value : Literal)
  | name (name : String)
  | bang
  | operator (op : Operator)
deriving DecidableEq

structure Mark where
  sign : Sign
  line : Nat
deriving DecidableEq

/-- Operands show what their text stands for. The text of other tokens does not matter. -/
inductive Token.Shows (t : Token) : Mark → Prop where
  | literal {value : Literal} : Primary t (.literal value t.line) →
      Shows t ⟨.literal value, t.line⟩
  | name {name : String} : Primary t (.reference name t.line) → Shows t ⟨.name name, t.line⟩
  | bang : t.kind = .bang → Shows t ⟨.bang, t.line⟩
  | operator {tier : Tier} {op : Operator} : Joins tier t.kind op →
      Shows t ⟨.operator op, t.line⟩

/-- How tightly the operators of a tier bind. -/
def Tier.rank : Tier → Nat
  | equality => 0
  | comparison => 1
  | term => 2
  | factor => 3

namespace Expr

/-- The marks of an expression from left to right. A declaration is no expression. -/
def yield : Expr → List Mark
  | literal value line => [⟨.literal value, line⟩]
  | reference name line => [⟨.name name, line⟩]
  | declare .. => []
  | not operand line => ⟨.bang, line⟩ :: operand.yield
  | binary left op right line => left.yield ++ ⟨.operator op, line⟩ :: right.yield

/-- How tightly the root binds. What is no operation binds tighter than every operator. -/
def rank : Expr → Nat
  | binary _ op _ _ => op.tier.rank
  | _ => 4

end Expr

/-- On the left of an operator nothing looser stands, on the right only what binds tighter, and a
negation is of a negation or a single operand. -/
inductive Grouped : Expr → Prop where
  | literal {value : Literal} {line : Nat} : Grouped (.literal value line)
  | reference {name : String} {line : Nat} : Grouped (.reference name line)
  | not {operand : Expr} {line : Nat} : Grouped operand → operand.rank = 4 →
      Grouped (.not operand line)
  | binary {left right : Expr} {op : Operator} {line : Nat} : Grouped left → Grouped right →
      op.tier.rank ≤ left.rank → op.tier.rank < right.rank → ¬ (op = .div ∧ ZeroLiteral right) →
      Grouped (.binary left op right line)

variable {tier : Tier} {op op' : Operator} {t z : Token} {us vs : List Token} {line line' : Nat}
  {e e' left right left' right' : Expr} {Next : Phrase Expr} {xs ys : List Mark}

theorem rank_lt (tier : Tier) : tier.rank < 4 := by
  cases tier <;> decide

theorem joins_tier (h : Joins tier t.kind op) : op.tier = tier :=
  (joins_iff.mp h).2

theorem shows_primary (h : Primary t e) : List.Forall₂ Token.Shows [t] e.yield := by
  have hs : ∃ m, e.yield = [m] ∧ t.Shows m := by
    cases h with
    | string hk hq => exact ⟨_, rfl, .literal (.string hk hq)⟩
    | integer hk hn => exact ⟨_, rfl, .literal (.integer hk hn)⟩
    | float hk hx => exact ⟨_, rfl, .literal (.float hk hx)⟩
    | char hk hq => exact ⟨_, rfl, .literal (.char hk hq)⟩
    | trueWord hk => exact ⟨_, rfl, .literal (.trueWord hk)⟩
    | falseWord hk => exact ⟨_, rfl, .literal (.falseWord hk)⟩
    | identifier hk => exact ⟨_, rfl, .name (.identifier hk)⟩
  obtain ⟨m, hm, ht⟩ := hs
  rw [hm]
  exact .cons ht .nil

theorem shows_unary (h : Unary us e) : List.Forall₂ Token.Shows us e.yield := by
  induction h with
  | primary hp => exact shows_primary hp
  | not ht _ ih => exact .cons (.bang ht) ih

/-- The tokens of an expression show the marks of its tree. -/
theorem shows_expression (h : Expression us e) : List.Forall₂ Token.Shows us e.yield :=
  expression_induct (p := fun us e => List.Forall₂ Token.Shows us e.yield)
    (fun _ _ => shows_unary)
    (fun hu hj hv => List.rel_append hu (.cons (.operator hj) hv)) h

theorem grouped_unary (h : Unary us e) : Grouped e ∧ e.rank = 4 := by
  induction h with
  | primary hp => cases hp <;> exact ⟨by constructor, rfl⟩
  | not _ _ ih => exact ⟨.not ih.1 ih.2, rfl⟩

/-- A chain over phrases that bind tighter is grouped, and binds no looser than its tier. -/
theorem grouped_chain (hn : ∀ us e, Next us e → Grouped e ∧ tier.rank < e.rank)
    (h : Chain tier Next us e) : Grouped e ∧ tier.rank ≤ e.rank := by
  induction h with
  | operand h =>
    obtain ⟨hg, hr⟩ := hn _ _ h
    exact ⟨hg, by omega⟩
  | join _ hj hv hz ih =>
    obtain ⟨hg, hr⟩ := hn _ _ hv
    obtain rfl := joins_tier hj
    exact ⟨.binary ih.1 hg ih.2 hr hz, le_rfl⟩

theorem grouped_expression (h : Expression us e) : Grouped e := by
  have hu : ∀ us e, Unary us e → Grouped e ∧ Tier.factor.rank < e.rank := by
    intro us e h
    obtain ⟨hg, hr⟩ := grouped_unary h
    exact ⟨hg, by rw [hr]; exact rank_lt _⟩
  have hf : ∀ us e, Factor us e → Grouped e ∧ Tier.term.rank < e.rank :=
    fun _ _ h => grouped_chain hu h
  have ht : ∀ us e, Term us e → Grouped e ∧ Tier.comparison.rank < e.rank :=
    fun _ _ h => grouped_chain hf h
  have hc : ∀ us e, Comparison us e → Grouped e ∧ Tier.equality.rank < e.rank :=
    fun _ _ h => grouped_chain ht h
  exact (grouped_chain hc h).1

/-- The phrases of one rank, from whole expressions to those without operators. -/
def Level : Nat → Phrase Expr
  | 0 => Equality
  | 1 => Comparison
  | 2 => Term
  | 3 => Factor
  | _ => Unary

theorem level_rank (tier : Tier) : Level tier.rank = Chain tier (Level (tier.rank + 1)) := by
  cases tier <;> rfl

theorem level_succ {n : Nat} (h : Level (n + 1) us e) : Level n us e := by
  match n, h with
  | 0, h => exact .operand h
  | 1, h => exact .operand h
  | 2, h => exact .operand h
  | 3, h => exact .operand h
  | _ + 4, h => exact h

theorem level_mono {m n : Nat} (hmn : m ≤ n) (h : Level n us e) : Level m us e := by
  induction n, hmn using Nat.le_induction with
  | base => exact h
  | succ n _ ih => exact ih (level_succ h)

theorem forall₂_append {R : Token → Mark → Prop} (h : List.Forall₂ R us (xs ++ ys)) :
    ∃ vs ws, us = vs ++ ws ∧ List.Forall₂ R vs xs ∧ List.Forall₂ R ws ys :=
  ⟨_, _, (List.take_append_drop xs.length us).symm, List.forall₂_take_append us xs ys h,
    List.forall₂_drop_append us xs ys h⟩

/-- Tokens that show the marks of a grouped tree are a phrase of the tree's rank. -/
theorem level_of_shows (hg : Grouped e) (h : List.Forall₂ Token.Shows us e.yield) :
    Level e.rank us e := by
  induction hg generalizing us with
  | literal =>
    obtain ⟨t, _, ht, hnil, rfl⟩ := List.forall₂_cons_right_iff.mp h
    cases hnil
    cases ht with
    | literal hp => exact Unary.primary hp
  | reference =>
    obtain ⟨t, _, ht, hnil, rfl⟩ := List.forall₂_cons_right_iff.mp h
    cases hnil
    cases ht with
    | name hp => exact Unary.primary hp
  | not _ hr ih =>
    obtain ⟨t, vs, ht, hvs, rfl⟩ := List.forall₂_cons_right_iff.mp h
    have hu := ih hvs
    rw [hr] at hu
    cases ht with
    | bang hk => exact Unary.not hk hu
  | @binary left right op line _ _ hl hr hz ihl ihr =>
    obtain ⟨vs, _, rfl, hvs, hws⟩ := forall₂_append h
    obtain ⟨t, ws, ht, hright, rfl⟩ := List.forall₂_cons_right_iff.mp hws
    cases ht with
    | operator hj =>
      have hu := level_mono hl (ihl hvs)
      have hv := level_mono hr (ihr hright)
      rw [level_rank] at hu
      have hc := Chain.join hu ((joins_tier hj).symm ▸ hj) hv hz
      rwa [← level_rank] at hc

theorem expression_of_shows (hg : Grouped e) (h : List.Forall₂ Token.Shows us e.yield) :
    Expression us e :=
  level_mono (Nat.zero_le _) (level_of_shows hg h)

/-- No operator in a grouped tree binds looser than its root. -/
theorem rank_le_of_mem (hg : Grouped e) (h : ⟨.operator op, line⟩ ∈ e.yield) :
    e.rank ≤ op.tier.rank := by
  induction hg with
  | literal => simp [Expr.yield] at h
  | reference => simp [Expr.yield] at h
  | not _ hr ih =>
    have hm := ih (by simpa [Expr.yield] using h)
    rwa [hr] at hm
  | binary _ _ hl hr _ ihl ihr =>
    simp only [Expr.yield, List.mem_append, List.mem_cons] at h
    rcases h with h | h | h
    · exact hl.trans (ihl h)
    · cases h
      exact le_rfl
    · exact (hr.trans_le (ihr h)).le

theorem yield_ne_of_rank (hg : Grouped e) (hr : e.rank = 4) :
    e.yield ≠ xs ++ ⟨.operator op, line⟩ :: ys := by
  intro h
  have hle := rank_le_of_mem hg (show ⟨.operator op, line⟩ ∈ e.yield by simp [h])
  have hlt := rank_lt op.tier
  omega

/-- The root of one grouped tree does not stand inside the left operand of another with the same
marks: there it would bind no looser than the other root, which stands inside its right operand. -/
theorem root_not_left (hg : Grouped (.binary left op right line))
    (hg' : Grouped (.binary left' op' right' line'))
    (hl : left'.yield = left.yield ++ ⟨.operator op, line⟩ :: xs)
    (hr : right.yield = xs ++ ⟨.operator op', line'⟩ :: ys) : False := by
  cases hg with
  | binary _ hright _ hlt _ =>
    cases hg' with
    | binary hleft' _ hle _ _ =>
      have := rank_le_of_mem hleft' (show ⟨.operator op, line⟩ ∈ left'.yield by simp [hl])
      have := rank_le_of_mem hright (show ⟨.operator op', line'⟩ ∈ right.yield by simp [hr])
      omega

/-- Two grouped operations with the same marks are cut at the same operator. -/
theorem yield_binary (hg : Grouped (.binary left op right line))
    (hg' : Grouped (.binary left' op' right' line'))
    (h : (Expr.binary left op right line).yield = (Expr.binary left' op' right' line').yield) :
    left.yield = left'.yield ∧ op = op' ∧ line = line' ∧ right.yield = right'.yield := by
  rcases List.append_eq_append_iff.mp h with ⟨xs, hl, ht⟩ | ⟨xs, hl, ht⟩
  · cases xs with
    | nil => simp_all
    | cons x xs =>
      obtain ⟨rfl, hr⟩ := List.cons.inj ht
      exact (root_not_left hg hg' hl hr).elim
  · cases xs with
    | nil => simp_all
    | cons x xs =>
      obtain ⟨rfl, hr⟩ := List.cons.inj ht
      exact (root_not_left hg' hg hl hr).elim

theorem yield_injective (hg : Grouped e) (hg' : Grouped e') (h : e.yield = e'.yield) : e = e' := by
  induction hg generalizing e' with
  | literal =>
    cases hg' with
    | literal => simp_all [Expr.yield]
    | reference => simp [Expr.yield] at h
    | not => simp [Expr.yield] at h
    | binary => exact (yield_ne_of_rank .literal rfl h).elim
  | reference =>
    cases hg' with
    | literal => simp [Expr.yield] at h
    | reference => simp_all [Expr.yield]
    | not => simp [Expr.yield] at h
    | binary => exact (yield_ne_of_rank .reference rfl h).elim
  | not ho hr ih =>
    cases hg' with
    | literal => simp [Expr.yield] at h
    | reference => simp [Expr.yield] at h
    | not ho' _ =>
      obtain ⟨hm, ht⟩ := List.cons.inj h
      cases hm
      rw [ih ho' ht]
    | binary => exact (yield_ne_of_rank (.not ho hr) rfl h).elim
  | binary hl hr hle hlt hz ihl ihr =>
    cases hg' with
    | literal => exact (yield_ne_of_rank .literal rfl h.symm).elim
    | reference => exact (yield_ne_of_rank .reference rfl h.symm).elim
    | not ho' hr' => exact (yield_ne_of_rank (.not ho' hr') rfl h.symm).elim
    | binary hl' hr' hle' hlt' hz' =>
      obtain ⟨hleft, rfl, rfl, hright⟩ :=
        yield_binary (.binary hl hr hle hlt hz) (.binary hl' hr' hle' hlt' hz') h
      rw [ihl hl' hleft, ihr hr' hright]

namespace Session

variable {s : Session} {a : Rule.Answer}

/-- A session goes on with what the call before has left. -/
theorem drop_cursor (s : Session) (rule : Rule) :
    s.tokens.drop (s.call rule).2.cursor = (rule.reader.run (s.tokens.drop s.cursor)).rest := by
  have hrest := rule.reader.suffix (s.tokens.drop s.cursor)
  have hs := hrest.trans (List.drop_suffix s.cursor s.tokens)
  exact (List.suffix_iff_eq_drop.mp hs).symm

theorem reader_of_call_ok {rule : Rule} (h : (s.call rule).1 = .ok a) :
    (rule.reader.run (s.tokens.drop s.cursor)).outcome = .ok a := by
  simp only [call] at h
  cases ho : (rule.reader.run (s.tokens.drop s.cursor)).outcome with
  | error x => simp [ho, Except.mapError] at h
  | ok b => simpa [ho, Except.mapError] using h

theorem call_of_reader {rule : Rule} {ts rest : List Token}
    (h : rule.reader.run ts = ⟨.ok a, rest⟩) :
    (start ts).call rule = (.ok a, ⟨ts, ts.length - rest.length⟩) := by
  simp [call, start, h, Except.mapError]

end Session

/-- Reading an expression and taking its marks in order are inverse. The tokens that a call reads
show the marks of the tree it answers with; tokens that show the marks of a grouped tree, before the
end, are read as that tree; and no two grouped trees have the same marks. -/
theorem expression_yield_inverse :
    (∀ (s : Session) (a : Rule.Answer), (s.call .expression).1 = .ok a →
      ∃ e us, a = .single e ∧ Grouped e ∧
        s.tokens.drop s.cursor = us ++ s.tokens.drop (s.call .expression).2.cursor ∧
        List.Forall₂ Token.Shows us e.yield) ∧
      (∀ (e : Expr) (us : List Token) (z : Token), Grouped e →
        List.Forall₂ Token.Shows us e.yield → z.kind = .finish →
        (Session.start (us ++ [z])).call .expression =
          (.ok (.single e), ⟨us ++ [z], us.length⟩)) ∧
      ∀ e e', Grouped e → Grouped e' → e.yield = e'.yield → e = e' := by
  refine ⟨?_, ?_, fun _ _ => yield_injective⟩
  · intro s a h
    have ho := Session.reader_of_call_ok h
    obtain ⟨e, he, hrun⟩ := Reader.bind_ok ho
    obtain ⟨us, hus, hx⟩ := Reader.sound_expression _ e he
    rw [Rule.reader, hrun] at ho
    cases ho
    refine ⟨e, us, rfl, grouped_expression hx, ?_, shows_expression hx⟩
    rw [Session.drop_cursor, Rule.reader, hrun]
    exact hus
  · intro e us z hg hs hz
    have hx := expression_of_shows hg hs
    have hrun := Reader.complete_expression us e [z] hx
      (by simpa [Reader.peek, hz] using not_joins_finish)
    have hr : Rule.expression.reader.run (us ++ [z]) = ⟨.ok (.single e), [z]⟩ :=
      Reader.run_bind_of_run hrun
    simpa using Session.call_of_reader hr

/-- The tokens of `1 - 02 * y - !x`, over two lines. -/
def differences : List Token :=
  [⟨.integer, "1", 1⟩, ⟨.minus, "-", 1⟩, ⟨.integer, "02", 1⟩, ⟨.star, "*", 1⟩,
    ⟨.identifier, "y", 2⟩, ⟨.minus, "-", 2⟩, ⟨.bang, "!", 2⟩, ⟨.identifier, "x", 2⟩]

/-- The product is taken from one first, and the negation then. -/
def differencesTree : Expr :=
  .binary
    (.binary (.literal (.integer 1) 1) .sub
      (.binary (.literal (.integer 2) 1) .mul (.reference "y" 2) 1) 1)
    .sub (.not (.reference "x" 2) 2) 2

/-- The same marks with the second difference taken first. -/
def differencesRight : Expr :=
  .binary (.literal (.integer 1) 1) .sub
    (.binary (.binary (.literal (.integer 2) 1) .mul (.reference "y" 2) 1) .sub
      (.not (.reference "x" 2) 2) 2) 1

theorem expression_yield_inverse_differences :
    (Session.start (differences ++ [⟨.finish, "", 2⟩])).call .expression =
        (.ok (.single differencesTree), ⟨differences ++ [⟨.finish, "", 2⟩], 8⟩) ∧
      (∃ us, differences ++ [⟨.finish, "", 2⟩] = us ++ [⟨.finish, "", 2⟩] ∧
        List.Forall₂ Token.Shows us differencesTree.yield) ∧
      differencesRight.yield = differencesTree.yield ∧ ¬ Grouped differencesRight := by
  obtain ⟨hread, hwrite, hunique⟩ := expression_yield_inverse
  have hg : Grouped differencesTree :=
    .binary
      (.binary .literal (.binary .literal .reference (by decide) (by decide) (by simp)) (by decide)
        (by decide) (by simp))
      (.not .reference rfl) (by decide) (by decide) (by simp)
  have hs : List.Forall₂ Token.Shows differences differencesTree.yield :=
    .cons (.literal (.integer rfl (by decide +kernel))) <| .cons (.operator .sub) <|
      .cons (.literal (.integer rfl (by decide +kernel))) <| .cons (.operator .mul) <|
      .cons (.name (.identifier rfl)) <| .cons (.operator .sub) <| .cons (.bang rfl) <|
      .cons (.name (.identifier rfl)) .nil
  have hcall := hwrite differencesTree differences ⟨.finish, "", 2⟩ hg hs rfl
  refine ⟨hcall, ?_, rfl, ?_⟩
  · obtain ⟨e, us, ha, _, hus, hshow⟩ := hread _ _ (congrArg Prod.fst hcall)
    cases ha
    rw [hcall] at hus
    exact ⟨us, hus, hshow⟩
  · intro hr
    have := hunique _ _ hr hg rfl
    exact absurd this (by decide)

end Scriptlet
