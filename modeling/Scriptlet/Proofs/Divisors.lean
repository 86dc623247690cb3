import Scriptlet.Proofs.Acceptance
import Scriptlet.Proofs.Grouping
import Scriptlet.Proofs.Typing

/-!
Divisors in programs that were read. A divisor is a single operand or a negation, never a zero
literal after `/`, so that only a remainder by a literal zero divides by zero.
-/

namespace Scriptlet

open Grammar

/-- The node stands in the expression, at any depth. -/
inductive Expr.Within (node : Expr) : Expr → Prop where
  | self : Within node node
  | declare {name : String} {isMutable : Bool} {typeName : Option String} {initial : Expr}
      {line : Nat} : Within node initial →
      Within node (.declare name isMutable typeName initial line)
  | not {operand : Expr} {line : Nat} : Within node operand → Within node (.not operand line)
  | left {left right : Expr} {op : Operator} {line : Nat} : Within node left →
      Within node (.binary left op right line)
  | right {left right : Expr} {op : Operator} {line : Nat} : Within node right →
      Within node (.binary left op right line)

/-- The statements before one have values, and that one, of the given line, fails at a node. -/
def FailsAt (program : List Expr) (line : Nat) (node : Expr) (error : TypeError) : Prop :=
  ∃ pre e post, program = pre ++ e :: post ∧ (∀ s ∈ pre, ∃ v, s.eval s.line = .ok v) ∧
    e.line = line ∧ RaisedAt line e node error

variable {ts us : List Token} {es program : List Expr} {e node left right : Expr} {op : Operator}
  {line l : Nat} {v w : Value} {y : Binary64} {error : TypeError}

namespace Binary64

theorem nearest_pos {num den : Nat} (h : 0 < num / den) : 0 < nearest num den := by
  have hstep : pow2 (excess (num / den)) ≤ num / den :=
    (pow2_le_pow2 (Nat.sub_le _ _)).trans (pow2_log2_le h.ne')
  have hpos := pow2_pos (excess (num / den))
  have hq : 0 < num / (den * pow2 (excess (num / den))) := by
    rw [← Nat.div_div_eq_div_mul]
    exact Nat.div_pos hstep hpos
  exact Nat.mul_pos (hq.trans_le (le_roundDiv _ _)) hpos

theorem nearest_of_isZero_round {negative : Bool} {num den : Nat}
    (h : (round negative num den).isZero = true) : nearest num den = 0 := by
  unfold round at h
  split at h
  · simpa [isZero] using h
  · cases h

/-- No whole number but zero rounds to zero. -/
theorem isZero_ofInt {n : Int} : (ofInt n).isZero = true ↔ n = 0 := by
  constructor
  · intro h
    by_contra hn
    have hu := unit_pos
    have hpos : 0 < n.natAbs * unit / 1 := by
      rw [Nat.div_one]
      exact Nat.mul_pos (Int.natAbs_pos.mpr hn) hu
    have := nearest_pos hpos
    have := nearest_of_isZero_round h
    omega
  · rintro rfl
    decide +kernel

end Binary64

theorem toFloat?_integer_isZero {n : Int64} (hy : (Value.integer n).toFloat? = some y) :
    y.isZero = true ↔ n = 0 := by
  rw [Value.toFloat?, Option.some.injEq] at hy
  rw [← hy, Binary64.isZero_ofInt, ← Int64.toInt_inj, Int64.toInt_zero]

theorem exists_of_isInteger (h : v.isInteger = true) : ∃ n, v = .integer n := by
  cases v with
  | integer n => exact ⟨n, rfl⟩
  | float x => cases h
  | string s => cases h
  | boolean b => cases h

/-- Only two integers of which the second is zero have no quotient or remainder. -/
theorem binary_divisionByZero (h : Value.binary op v w = .error .divisionByZero) :
    (op = .div ∨ op = .mod) ∧ w = .integer 0 ∧ ∃ m, v = .integer m := by
  rcases operator_cases op with ha | ho | he
  · rw [binary_arithmetic ha] at h
    obtain ⟨f, hf⟩ := arithmetic_defined ha
    cases hv : v.toFloat? with
    | none => simp [Value.arithmetic, hv] at h
    | some x =>
      cases hw : w.toFloat? with
      | none => simp [Value.arithmetic, hv, hw] at h
      | some y =>
        rw [arithmetic_eq hv hw hf] at h
        split at h
        · rename_i hz
          simp only [Bool.and_eq_true] at hz
          obtain ⟨⟨⟨hiv, hiw⟩, hd⟩, hy⟩ := hz
          obtain ⟨m, rfl⟩ := exists_of_isInteger hiv
          obtain ⟨n, rfl⟩ := exists_of_isInteger hiw
          obtain rfl := (toFloat?_integer_isZero hw).mp hy
          exact ⟨divides_iff.mp hd, rfl, m, rfl⟩
        · cases (ofResult_error h).2
  · rw [binary_ordering ho] at h
    obtain ⟨rel, hr⟩ := ordering_defined ho
    simp only [Value.comparison, hr] at h
    split at h <;> cases h
  · exact (equality_ne_error he (binary_equating he ▸ h)).elim

/-- Where the cause is a division by zero, an operator was applied to such integers. -/
theorem raisedAt_divisionByZero (h : RaisedAt line e node error)
    (hc : error.innermost = .divisionByZero) :
    node.Within e ∧ ∃ left op right l m, node = .binary left op right l ∧ (op = .div ∨ op = .mod) ∧
      left.eval line = .ok (.integer m) ∧ right.eval line = .ok (.integer 0) := by
  induction h with
  | literal => cases hc
  | reference => cases hc
  | not => cases hc
  | declare _ ih =>
    obtain ⟨hw, hn⟩ := ih hc
    exact ⟨.declare hw, hn⟩
  | left _ ih =>
    obtain ⟨hw, hn⟩ := ih hc
    exact ⟨.left hw, hn⟩
  | right _ _ ih =>
    obtain ⟨hw, hn⟩ := ih hc
    exact ⟨.right hw, hn⟩
  | apply hl hr hb =>
    cases hc
    obtain ⟨ho, rfl, m, rfl⟩ := binary_divisionByZero hb
    exact ⟨.self, _, _, _, _, m, rfl, ho, hl, hr⟩

theorem grouped_within (hg : Grouped e) (h : node.Within e) : Grouped node := by
  induction h with
  | self => exact hg
  | declare => cases hg
  | not _ ih =>
    cases hg with
    | not ho => exact ih ho
  | left _ ih =>
    cases hg with
    | binary hl => exact ih hl
  | right _ ih =>
    cases hg with
    | binary _ hr => exact ih hr

theorem declaration_initial (h : Declaration us e) :
    ∃ name isMutable type initial line,
      e = .declare name isMutable type initial line ∧ Grouped initial := by
  cases h with
  | intro _ _ _ _ _ hp => exact ⟨_, _, _, _, _, rfl, (grouped_unary (.primary hp)).1⟩

/-- Every operation in a program of the grammar is grouped. -/
theorem program_grouped (h : Program us es) (he : e ∈ es)
    (hw : (Expr.binary left op right l).Within e) : Grouped (.binary left op right l) := by
  induction h with
  | nil => cases he
  | semicolon _ _ ih => exact ih he
  | declaration hd _ ih =>
    rcases List.mem_cons.mp he with rfl | he
    · obtain ⟨_, _, _, _, _, rfl, hg⟩ := declaration_initial hd
      cases hw with
      | declare hw => exact grouped_within hg hw
    · exact ih he
  | expression hx _ _ ih =>
    rcases List.mem_cons.mp he with rfl | he
    · exact grouped_within (grouped_expression hx) hw
    · exact ih he
  | last hx =>
    obtain rfl := List.mem_singleton.mp he
    exact grouped_within (grouped_expression hx) hw

/-- The right operand of the tightest operators holds no operator at its root. -/
theorem grouped_factor (h : Grouped (.binary left op right l)) (ho : op.tier = .factor) :
    Grouped right ∧ right.rank = 4 ∧ (op = .div → ¬ ZeroLiteral right) := by
  cases h with
  | binary _ hg _ hlt hz =>
    refine ⟨hg, ?_, fun hd hzero => hz ⟨hd, hzero⟩⟩
    have hle : right.rank ≤ 4 := by
      cases hg with
      | binary => exact (rank_lt _).le
      | _ => exact le_rfl
    rw [ho] at hlt
    exact Nat.le_antisymm hle hlt

/-- A divisor that has a value is a literal. -/
theorem literal_of_eval (hg : Grouped right) (hr : right.rank = 4) (he : right.eval line = .ok w) :
    ∃ value l, right = .literal value l ∧ value.value? = some w := by
  cases hg with
  | @literal value l =>
    cases hv : value.value? with
    | none => simp [Expr.eval, hv] at he
    | some u =>
      simp only [Expr.eval, hv] at he
      cases he
      exact ⟨value, l, rfl, hv⟩
  | reference => cases he
  | not => cases he
  | @binary _ _ op _ =>
    have hlt := rank_lt op.tier
    simp only [Expr.rank] at hr
    omega

theorem zeroLiteral_of_null {value : Literal} (hv : value.value? = some w)
    (hy : w.toFloat? = some y) (hz : y.Null) : ZeroLiteral (.literal value l) := by
  cases value with
  | integer n =>
    cases hv
    obtain rfl := (toFloat?_integer_isZero hy).mp (Binary64.null_iff.mp hz)
    exact .integer
  | float x =>
    cases hv
    cases hy
    exact .float hz
  | bool b => cases hv
  | string s =>
    cases hv
    cases hy
  | char c => cases hv

/-- The divisor of a quotient is no zero, whatever it evaluates to. -/
theorem quotient_divisor (h : Grouped (.binary left .div right l)) (he : right.eval line = .ok w)
    (hy : w.toFloat? = some y) : ¬ y.Null := by
  obtain ⟨hg, hr, hz⟩ := grouped_factor h rfl
  obtain ⟨value, l', rfl, hv⟩ := literal_of_eval hg hr he
  intro hn
  exact hz rfl (zeroLiteral_of_null hv hy hn)

theorem quotient_ne_zero (h : Grouped (.binary left .div right l)) :
    right.eval line ≠ .ok (.integer 0) := by
  intro he
  exact quotient_divisor h he rfl (Binary64.null_iff.mpr ((toFloat?_integer_isZero rfl).mpr rfl))

theorem remainder_divisor (h : Grouped (.binary left .mod right l))
    (he : right.eval line = .ok (.integer 0)) : ∃ l', right = .literal (.integer 0) l' := by
  obtain ⟨hg, hr, _⟩ := grouped_factor h rfl
  obtain ⟨value, l', rfl, hv⟩ := literal_of_eval hg hr he
  cases value with
  | integer n =>
    cases hv
    exact ⟨l', rfl⟩
  | float x => cases hv
  | bool b => cases hv
  | string s => cases hv
  | char c => cases hv

/-- The first statement without a value decides how a program fails. -/
theorem continueWith_error {last : Value} {s : Evaluator}
    (h : (Evaluator.continueWith last program s).1 = .error error) :
    ∃ pre e post, program = pre ++ e :: post ∧ (∀ s ∈ pre, ∃ v, s.eval s.line = .ok v) ∧
      e.eval e.line = .error error := by
  induction program generalizing last s with
  | nil => cases h
  | cons e program ih =>
    rw [Evaluator.continueWith] at h
    cases he : e.eval e.line with
    | error error' =>
      rw [he] at h
      cases h
      exact ⟨[], e, program, rfl, by simp, he⟩
    | ok v =>
      rw [he] at h
      obtain ⟨pre, e', post, rfl, hpre, he'⟩ := ih h
      exact ⟨e :: pre, e', post, rfl, List.forall_mem_cons.mpr ⟨⟨v, he⟩, hpre⟩, he'⟩

theorem exists_failsAt (h : interpret program = .error error) :
    ∃ line node, FailsAt program line node error := by
  obtain ⟨pre, e, post, hp, hpre, he⟩ := continueWith_error h
  obtain ⟨node, hn⟩ := eval_error_raisedAt he
  exact ⟨e.line, node, pre, e, post, hp, hpre, rfl, hn⟩

/-- A program that was read divides by zero only in a remainder by a literal zero. Its divisors are
no operations, declarations or, in quotients, zeros. -/
theorem parse_division_safe (ts : List Token) (program : List Expr)
    (h : parse ts = .ok program) :
    (∀ e ∈ program, ∀ left op right l, (Expr.binary left op right l).Within e →
      op = .mul ∨ op = .div ∨ op = .mod →
      (∀ left' op' right' l', right ≠ .binary left' op' right' l') ∧
        right.isDeclaration = false ∧ (op = .div → ¬ ZeroLiteral right)) ∧
      (∀ error, interpret program = .error error → error.innermost = .divisionByZero →
        (∃ line node, FailsAt program line node error) ∧
          ∀ line node, FailsAt program line node error →
            ∃ left l l' m, node = .binary left .mod (.literal (.integer 0) l') l ∧
              left.eval line = .ok (.integer m)) ∧
      ∀ e ∈ program, ∀ left right l, (Expr.binary left .div right l).Within e →
        ∀ line w, right.eval line = .ok w →
          (∀ v, Value.binary .div v w ≠ .error .divisionByZero) ∧
            ∀ y, w.toFloat? = some y → ¬ y.Null := by
  have hp := Reader.program_of_run (parse_eq_ok.mp h)
  refine ⟨?_, ?_, ?_⟩
  · intro e he left op right l hw ho
    have hf : op.tier = .factor := by rcases ho with rfl | rfl | rfl <;> rfl
    obtain ⟨hg, hr, hz⟩ := grouped_factor (program_grouped hp he hw) hf
    refine ⟨?_, ?_, hz⟩
    · rintro left' op' right' l' rfl
      exact (rank_lt op'.tier).ne hr
    · cases hg <;> rfl
  · intro error hi hc
    refine ⟨exists_failsAt hi, ?_⟩
    rintro line node ⟨pre, e, post, rfl, _, rfl, hn⟩
    obtain ⟨hw, left, op, right, l, m, rfl, rfl | rfl, hl, hr⟩ := raisedAt_divisionByZero hn hc
    · exact (quotient_ne_zero (program_grouped hp (by simp) hw) hr).elim
    · obtain ⟨l', rfl⟩ := remainder_divisor (program_grouped hp (by simp) hw) hr
      exact ⟨left, l, l', m, rfl, hl⟩
  · intro e he left right l hw line w hr
    have hg := program_grouped hp he hw
    refine ⟨?_, fun y hy => quotient_divisor hg hr hy⟩
    intro v hd
    obtain ⟨_, rfl, _⟩ := binary_divisionByZero hd
    exact quotient_ne_zero hg hr

/-- The tokens of `8 / 4 - 7 % 0`. -/
def zeroModulus : List Token :=
  [⟨.integer, "8", 1⟩, ⟨.slash, "/", 1⟩, ⟨.integer, "4", 1⟩, ⟨.minus, "-", 1⟩,
    ⟨.integer, "7", 1⟩, ⟨.percent, "%", 1⟩, ⟨.integer, "0", 1⟩, ⟨.finish, "", 1⟩]

def zeroModulusTree : Expr :=
  .binary (.binary (.literal (.integer 8) 1) .div (.literal (.integer 4) 1) 1) .sub
    (.binary (.literal (.integer 7) 1) .mod (.literal (.integer 0) 1) 1) 1

theorem parse_division_safe_zeroModulus :
    parse zeroModulus = .ok [zeroModulusTree] ∧
      interpret [zeroModulusTree] = .error (.operand (.raised .divisionByZero 1) 1) ∧
      (∃ line left l l' m,
        FailsAt [zeroModulusTree] line (.binary left .mod (.literal (.integer 0) l') l)
          (.operand (.raised .divisionByZero 1) 1) ∧ left.eval line = .ok (.integer m)) ∧
      ¬ ZeroLiteral (.literal (.integer 4) 1) ∧
      Value.binary .div (.integer 8) (.integer 4) ≠ .error .divisionByZero := by
  have hp : parse zeroModulus = .ok [zeroModulusTree] := by
    decide +kernel
  have hi : interpret [zeroModulusTree] = .error (.operand (.raised .divisionByZero 1) 1) := by
    decide +kernel
  obtain ⟨hshape, hfail, hquot⟩ := parse_division_safe zeroModulus _ hp
  have hw : (Expr.binary (.literal (.integer 8) 1) .div (.literal (.integer 4) 1) 1).Within
      zeroModulusTree := .left .self
  obtain ⟨⟨line, node, hn⟩, hall⟩ := hfail _ hi rfl
  obtain ⟨left, l, l', m, rfl, hl⟩ := hall line node hn
  exact ⟨hp, hi, ⟨line, left, l, l', m, hn, hl⟩,
    (hshape _ (by simp) _ _ _ _ hw (Or.inr (Or.inl rfl))).2.2 rfl,
    (hquot _ (by simp) _ _ _ hw 1 _ rfl).1 _⟩

end Scriptlet
