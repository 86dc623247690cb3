import Scriptlet.Binary64.Bits
import Scriptlet.Proofs.Quotients

/-!
Narrowing of doubles to integers. The exact value is cut towards zero, and what is left fits 53
binary digits again, so that no result of integer arithmetic is rounded when it is used as an
operand.
-/

namespace Scriptlet

/-- The whole number next to a fraction on the side of zero. -/
def towardZero (q : ℚ) : ℤ :=
  if q < 0 then ⌈q⌉ else ⌊q⌋

/-- The integers of 64 bits. -/
def Fits (n : ℤ) : Prop :=
  -2 ^ 63 ≤ n ∧ n < 2 ^ 63

theorem fits_toInt (w : Int64) : Fits w.toInt :=
  ⟨w.le_toInt, w.toInt_lt⟩

theorem towardZero_intCast (n : ℤ) : towardZero n = n := by
  simp [towardZero]

theorem towardZero_div (n : ℤ) {d : ℕ} (hd : 0 < d) : towardZero (n / d) = n.tdiv d := by
  have hd' : (0 : ℚ) < d := by exact_mod_cast hd
  have hsign : (n : ℚ) / d < 0 ↔ n < 0 := by
    rw [div_lt_iff₀ hd', zero_mul]
    exact Int.cast_lt_zero
  unfold towardZero
  by_cases hn : n < 0
  · rw [if_pos (hsign.mpr hn), Rat.ceil_intCast_div_natCast,
      ← Int.tdiv_eq_ediv_of_nonneg (by omega), Int.neg_tdiv, neg_neg]
  · rw [if_neg (hsign.not.mpr hn), Rat.floor_intCast_div_natCast,
      Int.tdiv_eq_ediv_of_nonneg (by omega)]

namespace Binary64

variable {x : Binary64} {w : Int64} {i : Int} {n : Nat} {q : ℚ}

/-- Truncation is that of the exact value. -/
theorem truncate?_eq_value (x : Binary64) : x.truncate? = x.value?.map towardZero := by
  cases x with
  | finite negative m =>
    have h : signed negative (m.quanta / unit) = (signed negative m.quanta).tdiv unit := by
      have := signed_tdiv negative false m.quanta unit
      rwa [Bool.bne_false, signed_false] at this
    rw [truncate?, value?, Option.map_some, towardZero_div _ unit_pos, h]
  | infinite negative => rfl
  | nan => rfl

theorem narrow_eq_ok_iff : x.narrow = .ok w ↔ ∃ q, x.value? = some q ∧ towardZero q = w.toInt := by
  have hnarrow : x.narrow = .ok w ↔ x.truncate?.bind narrow? = some w := by
    rw [narrow, toInt64?_eq_narrow]
    cases x.truncate?.bind narrow? <;> simp
  rw [hnarrow, truncate?_eq_value]
  simp only [Option.bind_eq_some_iff, Option.map_eq_some_iff, narrow?_eq_some_iff]
  constructor
  · rintro ⟨_, ⟨q, hq, rfl⟩, hw⟩
    exact ⟨q, hq, hw.symm⟩
  · rintro ⟨q, hq, hw⟩
    exact ⟨_, ⟨q, hq, rfl⟩, hw.symm⟩

theorem narrow_overflow (h : ∀ w, x.narrow ≠ .ok w) : x.narrow = .error .overflow := by
  unfold narrow at h ⊢
  cases hx : x.toInt64? with
  | none => rfl
  | some w => exact (h w (by rw [hx])).elim

theorem short_truncate (h : x.truncate? = some i) : Short i.natAbs := by
  cases x with
  | finite negative m =>
    obtain rfl := Option.some.inj h
    rw [natAbs_signed]
    exact short_div_unit m.short
  | infinite negative => cases h
  | nan => cases h

/-- An integer that fits 53 binary digits is not rounded. -/
theorem rounded_of_short (h : Short i.natAbs) : rounded i = i := by
  rw [rounded, nearest_one h, signed_decide]

theorem value?_whole (h : Whole x i) : x.value? = some (i : ℚ) := by
  cases h with
  | intro negative m k hk =>
    have hu : (unit : ℚ) ≠ 0 := by exact_mod_cast unit_pos.ne'
    rw [value?, hk, signed_mul_nat, Int.cast_mul, Int.cast_natCast, mul_div_cancel_right₀ _ hu]

theorem narrow_whole (h : Whole x w.toInt) : x.narrow = .ok w := by
  rw [narrow_eq_ok_iff]
  exact ⟨_, value?_whole h, towardZero_intCast _⟩

/-- What a double has been narrowed to is a double. -/
theorem whole_ofInt_narrow (h : x.narrow = .ok w) :
    Short w.toInt.natAbs ∧ Whole (ofInt w.toInt) w.toInt := by
  obtain ⟨q, hq, hw⟩ := narrow_eq_ok_iff.mp h
  have hs : Short w.toInt.natAbs := by
    apply short_truncate (x := x)
    rw [truncate?_eq_value, hq, Option.map_some, hw]
  refine ⟨hs, ?_⟩
  have hwhole := whole_ofInt (natAbs_toInt_le w)
  rwa [rounded_of_short hs] at hwhole

end Binary64

open Binary64

variable {op : Operator} {x : Binary64} {a b n : Int64}

theorem ofResult_eq_ok_iff : Value.ofResult true x = .ok (.integer n) ↔ x.narrow = .ok n := by
  unfold Value.ofResult
  cases x.narrow <;> simp [Except.map]

/-- The result of an operator on two integers has been narrowed from a double. -/
theorem narrow_of_arithmetic
    (h : Value.arithmetic op (.integer a) (.integer b) = .ok (.integer n)) :
    ∃ x : Binary64, x.narrow = .ok n := by
  cases hf : op.arithmetic? with
  | none =>
    simp only [Value.arithmetic, Value.toFloat?, hf] at h
    split at h <;> cases h
  | some f =>
    rw [arithmetic_integer hf] at h
    split at h
    · cases h
    · exact ⟨_, ofResult_eq_ok_iff.mp h⟩

/-- Zero added to an integer that is a double leaves it as it is. -/
theorem arithmetic_add_zero (hs : Short n.toInt.natAbs) (hw : Whole (ofInt n.toInt) n.toInt) :
    Value.arithmetic .add (.integer n) (.integer 0) = .ok (.integer n) := by
  have hle : n.toInt.natAbs ≤ pow2 64 := (natAbs_toInt_le n).trans (pow2_le_pow2 (by decide))
  have hsum : Whole (add (ofInt n.toInt) (ofInt 0)) (n.toInt + 0) :=
    whole_add hw (whole_ofInt_self (by decide)) (by rwa [Int.add_zero]) (by rwa [Int.add_zero])
  rw [Int.add_zero] at hsum
  have hne : ¬ (Operator.divides .add = true ∧ (0 : Int64) = 0) := fun h => nomatch h.1
  rw [arithmetic_integer rfl, if_neg hne, Int64.toInt_zero]
  exact ofResult_eq_ok_iff.mpr (narrow_whole hsum)

/-- A double is narrowed to the integer next to its exact value on the side of zero, if that has 64
bits, and overflows otherwise. The integer is the value of a double, that of its own promotion, and
every result of integer arithmetic is such an integer. -/
theorem narrowing_exact (x : Binary64) (line : Nat) :
    (∀ n : ℤ, (∃ w : Int64, w.toInt = n ∧ TypeError.atLine line x.narrow = .ok w) ↔
      ∃ q, x.value? = some q ∧ n = towardZero q ∧ Fits n) ∧
      ((∀ q, x.value? = some q → ¬ Fits (towardZero q)) →
        TypeError.atLine line x.narrow = .error (.raised .overflow line)) ∧
      (∀ w : Int64, TypeError.atLine line x.narrow = .ok w →
        ∃ y, (Value.integer w).asFloat = .ok y ∧ y.value? = some (w.toInt : ℚ) ∧
          TypeError.atLine line y.narrow = .ok w) ∧
      ∀ op a b n, Value.arithmetic op (.integer a) (.integer b) = .ok (.integer n) →
        Value.arithmetic .add (.integer n) (.integer 0) = .ok (.integer n) := by
  have hline : ∀ (y : Binary64) w, TypeError.atLine line y.narrow = .ok w ↔ y.narrow = .ok w := by
    intro y w
    cases y.narrow <;> simp [TypeError.atLine, Except.mapError]
  refine ⟨?_, ?_, ?_, ?_⟩
  · intro n
    simp only [hline, narrow_eq_ok_iff]
    constructor
    · rintro ⟨w, rfl, q, hq, hw⟩
      exact ⟨q, hq, hw.symm, fits_toInt w⟩
    · rintro ⟨q, hq, rfl, hf⟩
      exact ⟨.ofInt (towardZero q), toInt_ofInt_of_mem hf, q, hq, (toInt_ofInt_of_mem hf).symm⟩
  · intro hout
    have hx : x.narrow = .error .overflow := by
      apply narrow_overflow
      intro w hw
      obtain ⟨q, hq, hn⟩ := narrow_eq_ok_iff.mp hw
      apply hout q hq
      rw [hn]
      exact fits_toInt w
    rw [hx]
    rfl
  · intro w hw
    obtain ⟨_, hwhole⟩ := whole_ofInt_narrow ((hline x w).mp hw)
    exact ⟨ofInt w.toInt, rfl, value?_whole hwhole, (hline _ w).mpr (narrow_whole hwhole)⟩
  · intro op a b n h
    obtain ⟨y, hy⟩ := narrow_of_arithmetic h
    obtain ⟨hs, hwhole⟩ := whole_ofInt_narrow hy
    exact arithmetic_add_zero hs hwhole

/-- The greatest double below 2^63 can be narrowed and 2^63 cannot. A product of two integers that
is not exact is another such result. -/
theorem narrowing_exact_top :
    (∃ y, (Value.integer 9223372036854774784).asFloat = .ok y ∧
      y.value? = some ((9223372036854774784 : Int64).toInt : ℚ) ∧
      TypeError.atLine 4 y.narrow = .ok 9223372036854774784) ∧
      TypeError.atLine 4 (ofInt (2 ^ 63)).narrow = .error (.raised .overflow 4) ∧
      Value.arithmetic .mul (.integer 3037000499) (.integer 3037000500) =
        .ok (.integer 9223372033963249664) ∧
      Value.arithmetic .add (.integer 9223372033963249664) (.integer 0) =
        .ok (.integer 9223372033963249664) := by
  have hok : TypeError.atLine 4 (ofBits 0x43DFFFFFFFFFFFFF).narrow = .ok 9223372036854774784 := by
    decide +kernel
  have hmul : Value.arithmetic .mul (.integer 3037000499) (.integer 3037000500) =
      .ok (.integer 9223372033963249664) := by
    decide +kernel
  have htop : Whole (ofInt (2 ^ 63)) (2 ^ 63) := by
    have hs : Short (2 ^ 63 : ℤ).natAbs := short_pow2 63
    have h := whole_ofInt (i := 2 ^ 63) (by decide)
    rwa [rounded_of_short hs] at h
  obtain ⟨_, _, hback, hsum⟩ := narrowing_exact (ofBits 0x43DFFFFFFFFFFFFF) 4
  refine ⟨hback _ hok, (narrowing_exact (ofInt (2 ^ 63)) 4).2.1 ?_, hmul, hsum _ _ _ _ hmul⟩
  intro q hq hf
  rw [value?_whole htop] at hq
  obtain rfl := Option.some.inj hq
  rw [towardZero_intCast] at hf
  exact absurd hf.2 (by decide)

end Scriptlet
