import Scriptlet.Proofs.Divisors
import Scriptlet.Proofs.WholeNumbers

/-!
Integer arithmetic in the range where every integer is a double. Evaluation agrees there with
arithmetic on unbounded integers, in which quotients are cut towards zero.
-/

namespace Scriptlet

/-- The operator on unbounded integers; a divisor of zero has no quotient and no remainder. -/
def Operator.ideal? : Operator → Int → Int → Option Int
  | .add, i, j => some (i + j)
  | .sub, i, j => some (i - j)
  | .mul, i, j => some (i * j)
  | .div, i, j => if j = 0 then none else some (i.tdiv j)
  | .mod, i, j => if j = 0 then none else some (i.tmod j)
  | _, _, _ => none

/-- The value over unbounded integers of integer literals under arithmetic operators. -/
def Expr.ideal? : Expr → Option Int
  | .literal (.integer n) _ => some n.toInt
  | .binary left op right _ =>
    left.ideal?.bind fun i => right.ideal?.bind fun j => op.ideal? i j
  | _ => none

variable {op : Operator} {x y : Binary64} {f : Binary64 → Binary64 → Binary64} {i j n : Int}

open Binary64

theorem arithmetic_of_ideal (h : op.ideal? i j = some n) :
    op.Arithmetic ∧ (op.divides = true → j ≠ 0) := by
  cases op <;> simp only [Operator.ideal?, reduceCtorEq] at h
  case add => exact ⟨.add, nofun⟩
  case sub => exact ⟨.sub, nofun⟩
  case mul => exact ⟨.mul, nofun⟩
  case div => exact ⟨.div, fun _ h0 => by simp [h0] at h⟩
  case mod => exact ⟨.mod, fun _ h0 => by simp [h0] at h⟩

/-- Operators on doubles that are small integers come to the exact result, cut towards zero. -/
theorem truncate_ideal (h : op.ideal? i j = some n) (hf : op.arithmetic? = some f)
    (hx : Whole x i) (hy : Whole y j) (hi : i.natAbs ≤ pow2 53) (hj : j.natAbs ≤ pow2 53)
    (hn : n.natAbs ≤ pow2 53) : (f x y).truncate? = some n := by
  have hs := short_of_le hn
  have hk : n.natAbs ≤ pow2 64 := hn.trans (pow2_le_pow2 (by decide))
  have h0 := (arithmetic_of_ideal h).2
  cases op <;> cases hf <;> simp only [Operator.ideal?] at h
  case add =>
    obtain rfl := Option.some.inj h
    exact truncate_whole (whole_add hx hy hs hk)
  case sub =>
    obtain rfl := Option.some.inj h
    exact truncate_whole (whole_add hx (whole_neg hy) hs hk)
  case mul =>
    obtain rfl := Option.some.inj h
    exact truncate_whole (whole_mul hx hy hs hk)
  case div =>
    rw [if_neg (h0 rfl)] at h
    obtain rfl := Option.some.inj h
    exact truncate_quotient hx hy (h0 rfl) hi hj
  case mod =>
    rw [if_neg (h0 rfl)] at h
    obtain rfl := Option.some.inj h
    exact truncate_whole (whole_rem hx hy (h0 rfl))

/-- Arithmetic on integers, with the test for a zero divisor made on the integer itself. -/
theorem arithmetic_integer (hf : op.arithmetic? = some f) (a b : Int64) :
    Value.arithmetic op (.integer a) (.integer b) =
      if op.divides = true ∧ b = 0 then .error .divisionByZero
      else Value.ofResult true (f (ofInt a.toInt) (ofInt b.toInt)) := by
  rw [arithmetic_eq rfl rfl hf]
  simp only [Value.isInteger, Bool.and_self, Bool.true_and, Bool.and_eq_true,
    toFloat?_integer_isZero rfl]

theorem ofResult_truncate (h : x.truncate? = some n) :
    Value.ofResult true x =
      match narrow? n with
      | some w => .ok (.integer w)
      | none => .error .overflow := by
  simp only [Value.ofResult, Binary64.narrow, toInt64?_eq_narrow, h, Option.bind_some, if_true]
  cases narrow? n <;> rfl

theorem ofResult_mem (h : x.truncate? = some n)
    (hn : -9223372036854775808 ≤ n ∧ n < 9223372036854775808) :
    ∃ w : Int64, w.toInt = n ∧ Value.ofResult true x = .ok (.integer w) := by
  refine ⟨Int64.ofInt n, toInt_ofInt_of_mem hn, ?_⟩
  rw [ofResult_truncate h, narrow?, if_pos hn]

theorem arithmetic_ideal {a b : Int64} (h : op.ideal? a.toInt b.toInt = some n)
    (ha : a.toInt.natAbs ≤ pow2 53) (hb : b.toInt.natAbs ≤ pow2 53) (hn : n.natAbs ≤ pow2 53) :
    ∃ w : Int64, w.toInt = n ∧
      Value.arithmetic op (.integer a) (.integer b) = .ok (.integer w) := by
  obtain ⟨hop, h0⟩ := arithmetic_of_ideal h
  obtain ⟨f, hf⟩ := arithmetic_defined hop
  have hz : ¬ (op.divides = true ∧ b = 0) := by
    rintro ⟨hd, rfl⟩
    exact h0 hd rfl
  have ht := truncate_ideal h hf (whole_ofInt_self ha) (whole_ofInt_self hb) ha hb hn
  have h53 : pow2 53 = 9007199254740992 := rfl
  rw [arithmetic_integer hf, if_neg hz]
  exact ofResult_mem ht (by omega)

theorem eval_binary {left right : Expr} {line l : Nat} {v w u : Value}
    (hl : left.eval line = .ok v) (hr : right.eval line = .ok w)
    (hb : Value.binary op v w = .ok u) : (Expr.binary left op right l).eval line = .ok u := by
  rw [Expr.eval, hl, hr]
  simp only [hb]
  rfl

/-- An expression over integers has its exact value, if no divisor in it is zero and it and all its
parts stay within 2^53. -/
theorem eval_exact (s : Evaluator) (e : Expr) (n : Int) (h : e.ideal? = some n)
    (hsafe : ∀ (node : Expr) (m : Int), node.Within e → node.ideal? = some m → m.natAbs ≤ 2 ^ 53) :
    ∃ w : Int64, w.toInt = n ∧ s.eval e = .ok (.integer w) := by
  unfold Evaluator.eval
  induction e generalizing n with
  | literal value line =>
    cases value with
    | integer w => exact ⟨w, Option.some.inj h, rfl⟩
    | float x => cases h
    | bool b => cases h
    | string s => cases h
    | char c => cases h
  | reference name line => cases h
  | declare name isMutable typeName initial line => cases h
  | not operand line => cases h
  | binary left op right line ihl ihr =>
    have hn := hsafe _ _ .self h
    obtain ⟨i, hi, h⟩ := Option.bind_eq_some_iff.mp h
    obtain ⟨j, hj, h⟩ := Option.bind_eq_some_iff.mp h
    obtain ⟨a, rfl, hl⟩ := ihl i hi fun node m hw => hsafe node m (.left hw)
    obtain ⟨b, rfl, hr⟩ := ihr j hj fun node m hw => hsafe node m (.right hw)
    obtain ⟨w, hw, ha⟩ :=
      arithmetic_ideal h (hsafe _ _ (.left .self) hi) (hsafe _ _ (.right .self) hj) hn
    refine ⟨w, hw, eval_binary hl hr ?_⟩
    rwa [binary_arithmetic (arithmetic_of_ideal h).1]

/-- The expression `(-9007199254740992 / 3) % 1`. Its value is computed as a negative zero. -/
def wholeThird : Expr :=
  .binary
    (.binary (.literal (.integer (-9007199254740992)) 1) .div (.literal (.integer 3) 1) 1) .mod
    (.literal (.integer 1) 1) 1

theorem eval_exact_wholeThird :
    wholeThird.ideal? = some 0 ∧
      (∀ (node : Expr) (m : Int), node.Within wholeThird → node.ideal? = some m →
        m.natAbs ≤ 2 ^ 53) ∧
      ∃ w : Int64, w.toInt = 0 ∧ Evaluator.start.eval wholeThird = .ok (.integer w) := by
  have hvalue : wholeThird.ideal? = some 0 := by decide +kernel
  have hsafe : ∀ (node : Expr) (m : Int), node.Within wholeThird → node.ideal? = some m →
      m.natAbs ≤ 2 ^ 53 := by
    intro node m hw h
    suffices hall : ∀ m ∈ node.ideal?, m.natAbs ≤ 2 ^ 53 from hall m h
    rcases hw with _ | _ | _ | hw | hw
    · decide +kernel
    · rcases hw with _ | _ | _ | hw | hw
      · decide +kernel
      · cases hw
        decide +kernel
      · cases hw
        decide +kernel
    · cases hw
      decide +kernel
  exact ⟨hvalue, hsafe, eval_exact _ _ _ hvalue hsafe⟩

end Scriptlet
