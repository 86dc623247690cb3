import Scriptlet.Power

/-!
Rounding of fractions to 53 significant binary digits, to nearest with ties to even. The scale
of the result is read off the integral part, and nothing below one unit is kept.
-/

namespace Scriptlet.Binary64

/-- The nearest whole number to `num / den`, the even one of two equally near. -/
def roundDiv (num den : Nat) : Nat :=
  let quot := num / den
  let twice := 2 * (num % den)
  if twice < den then quot
  else if den < twice then quot + 1
  else quot + quot % 2

/-- How many binary digits of a number of this integral part are rounded off. -/
def excess (whole : Nat) : Nat :=
  whole.log2 - 52

/-- The nearest number to `num / den` with at most 53 significant binary digits. -/
def nearest (num den : Nat) : Nat :=
  let step := pow2 (excess (num / den))
  roundDiv num (den * step) * step

/-- A whole number with at most 53 significant binary digits. -/
def Short (n : Nat) : Prop :=
  ∃ m s, n = m * pow2 s ∧ m < pow2 53

theorem roundDiv_le (num den : Nat) : roundDiv num den ≤ num / den + 1 := by
  simp only [roundDiv]
  split
  · omega
  · split <;> omega

theorem le_roundDiv (num den : Nat) : num / den ≤ roundDiv num den := by
  simp only [roundDiv]
  split
  · omega
  · split <;> omega

theorem div_pow2_excess_lt (n : Nat) : n / pow2 (excess n) < pow2 53 := by
  rw [Nat.div_lt_iff_lt_mul (pow2_pos _), ← pow2_add]
  refine Nat.lt_of_lt_of_le (lt_pow2_log2 n) (pow2_le_pow2 ?_)
  simp only [excess]
  omega

theorem roundDiv_excess_le (num den : Nat) :
    roundDiv num (den * pow2 (excess (num / den))) ≤ pow2 53 := by
  have h := roundDiv_le num (den * pow2 (excess (num / den)))
  rw [← Nat.div_div_eq_div_mul] at h
  have := div_pow2_excess_lt (num / den)
  omega

theorem short_of_lt {n : Nat} (h : n < pow2 53) : Short n :=
  ⟨n, 0, (Nat.mul_one n).symm, h⟩

theorem short_mul_pow2 {n : Nat} (s : Nat) (h : Short n) : Short (n * pow2 s) := by
  obtain ⟨m, t, rfl, hm⟩ := h
  exact ⟨m, t + s, by rw [pow2_add, Nat.mul_assoc], hm⟩

theorem short_of_le {n : Nat} (h : n ≤ pow2 53) : Short n := by
  obtain h | rfl := Nat.lt_or_eq_of_le h
  · exact short_of_lt h
  · exact ⟨pow2 52, 1, pow2_succ 52, by decide⟩

theorem short_nearest (num den : Nat) : Short (nearest num den) :=
  short_mul_pow2 _ (short_of_le (roundDiv_excess_le num den))

end Scriptlet.Binary64
