import Scriptlet.Binary64.Arith
import Scriptlet.Proofs.Nearest

/-!
Doubles that are whole numbers. Sums, differences, products and remainders of such are exact where
53 binary digits are enough for the result, and a quotient of numbers up to 2^53 is rounded without
reaching the next whole number.
-/

namespace Scriptlet.Binary64

/-- A finite double that is a whole number, zero of either sign included. -/
inductive Whole : Binary64 → Int → Prop where
  | intro (negative : Bool) (m : Magnitude) (k : Nat) : m.quanta = k * unit →
      Whole (.finite negative m) (signed negative k)

variable {x y : Binary64} {a b : Bool} {i j : Int} {k l num den : Nat}

theorem signed_decide (i : Int) : signed (decide (i < 0)) i.natAbs = i := by
  by_cases h : i < 0
  · rw [decide_eq_true h, signed_true]
    omega
  · rw [decide_eq_false h, signed_false]
    omega

theorem signed_not (a : Bool) (k : Nat) : signed (!a) k = -signed a k := by
  cases a <;> simp

theorem signed_mul (a b : Bool) (k l : Nat) :
    signed (a != b) (k * l) = signed a k * signed b l := by
  cases a <;> cases b <;> simp

theorem signed_mul_nat (a : Bool) (k l : Nat) : signed a (k * l) = signed a k * l := by
  cases a <;> simp

theorem signed_tdiv (a b : Bool) (k l : Nat) :
    signed (a != b) (k / l) = (signed a k).tdiv (signed b l) := by
  cases a <;> cases b <;> simp

theorem signed_tmod (a b : Bool) (k l : Nat) :
    signed a (k % l) = (signed a k).tmod (signed b l) := by
  cases a <;> cases b <;>
    simp only [signed_false, signed_true, Int.neg_tmod, Int.tmod_neg, Int.ofNat_tmod]

theorem truncate_whole (h : Whole x i) : x.truncate? = some i := by
  cases h with
  | intro negative m k hk => rw [truncate?, hk, Nat.mul_div_cancel _ unit_pos]

theorem key?_whole (h : Whole x i) : x.key? = some (i * unit) := by
  cases h with
  | intro negative m k hk => rw [key?, hk, signed_mul_nat]

theorem small_of_le (h : k ≤ pow2 64) : k * unit < ceiling := by
  have hle : k * unit ≤ pow2 (64 + unitLog) := by
    rw [unit, pow2_add]
    exact Nat.mul_le_mul_right _ h
  rw [ceiling]
  exact hle.trans_lt (pow2_lt_pow2 (by decide))

theorem whole_round (h : nearest num den = k * unit) (hk : k ≤ pow2 64) :
    Whole (round a num den) (signed a k) := by
  have hlt : nearest num den < ceiling := h ▸ small_of_le hk
  rw [round, dif_pos hlt]
  exact .intro a _ k h

theorem short_unit (h : Short k) : Short (k * unit) := by
  rw [unit]
  exact short_mul_pow2 unitLog h

theorem log2_mul_pow2 (hk : k ≠ 0) (l : Nat) : (k * pow2 l).log2 = k.log2 + l := by
  rw [Nat.log2_eq_iff (Nat.mul_ne_zero hk (pow2_pos l).ne')]
  constructor
  · exact (pow2_add k.log2 l).le.trans (Nat.mul_le_mul_right _ (pow2_log2_le hk))
  · rw [Nat.add_right_comm]
    exact (Nat.mul_lt_mul_of_pos_right (lt_pow2_log2 k) (pow2_pos l)).trans_eq
      (pow2_add (k.log2 + 1) l).symm

theorem roundDiv_mul_right (hl : 0 < l) : roundDiv (num * l) (den * l) = roundDiv num den := by
  simp only [roundDiv, Nat.mul_div_mul_right _ _ hl, Nat.mul_mod_mul_right, ← Nat.mul_assoc,
    Nat.mul_lt_mul_right hl]

/-- A whole number is rounded to a whole number. -/
theorem nearest_unit (k : Nat) : nearest (k * unit) 1 = nearest k 1 * unit := by
  by_cases hk : k < pow2 53
  · have hs := short_of_lt hk
    rw [nearest_one hs, nearest_one (short_unit hs)]
  · have hk0 : k ≠ 0 := by
      rintro rfl
      exact hk (pow2_pos 53)
    have hlog : 53 ≤ k.log2 := (Nat.le_log2 hk0).mpr (Nat.le_of_not_lt hk)
    have hexcess : excess (k * unit) = excess k + unitLog := by
      simp only [excess, unit, log2_mul_pow2 hk0]
      omega
    simp only [nearest, Nat.div_one, Nat.one_mul, hexcess, pow2_add]
    rw [← unit, roundDiv_mul_right unit_pos, Nat.mul_assoc]

theorem whole_neg (h : Whole x i) : Whole (neg x) (-i) := by
  cases h with
  | intro negative m k hk =>
    rw [← signed_not]
    exact .intro (!negative) m k hk

theorem natAbs_mul_unit (i : Int) : (i * unit).natAbs = i.natAbs * unit := by
  rw [Int.natAbs_mul, Int.natAbs_natCast]

theorem whole_zero (a : Bool) : Whole (zero a) 0 := by
  have h : signed a 0 = 0 := by cases a <;> rfl
  rw [← h]
  exact .intro a .zero 0 (Nat.zero_mul unit).symm

theorem whole_add (hx : Whole x i) (hy : Whole y j) (hs : Short (i + j).natAbs)
    (hk : (i + j).natAbs ≤ pow2 64) : Whole (add x y) (i + j) := by
  cases hx with
  | intro a m k hm =>
    cases hy with
    | intro b n l hn =>
      have hsum : signed a m.quanta + signed b n.quanta = (signed a k + signed b l) * unit := by
        rw [hm, hn, signed_mul_nat, signed_mul_nat, add_mul]
      simp only [add, addFinite, hsum]
      generalize signed a k + signed b l = s at hs hk
      have hu : (0 : ℤ) < unit := by exact_mod_cast unit_pos
      split_ifs with h0
      · rw [(mul_eq_zero.mp h0).resolve_right hu.ne']
        exact whole_zero _
      · have hsign : decide (s * unit < 0) = decide (s < 0) := by
          rw [decide_eq_decide, mul_neg_iff]
          omega
        have habs : nearest (s * unit).natAbs 1 = s.natAbs * unit := by
          rw [natAbs_mul_unit]
          exact nearest_one (short_unit hs)
        have hw := whole_round (a := decide (s < 0)) habs hk
        rw [signed_decide] at hw
        rwa [hsign]

theorem whole_mul (hx : Whole x i) (hy : Whole y j) (hs : Short (i * j).natAbs)
    (hk : (i * j).natAbs ≤ pow2 64) : Whole (mul x y) (i * j) := by
  cases hx with
  | intro a m k hm =>
    cases hy with
    | intro b n l hn =>
      rw [← signed_mul, natAbs_signed] at hs hk
      rw [← signed_mul, mul, hm, hn]
      have hprod : k * unit * (l * unit) = k * l * unit * unit := by
        rw [Nat.mul_mul_mul_comm, ← Nat.mul_assoc]
      refine whole_round ?_ hk
      rw [hprod]
      exact nearest_mul unit_pos (short_unit hs)

theorem whole_rem (hx : Whole x i) (hy : Whole y j) (hj : j ≠ 0) : Whole (rem x y) (i.tmod j) := by
  cases hx with
  | intro a m k hm =>
    cases hy with
    | intro b n l hn =>
      have hl : n.quanta ≠ 0 := by
        rw [hn]
        refine Nat.mul_ne_zero ?_ unit_pos.ne'
        rintro rfl
        cases b <;> exact hj rfl
      rw [rem, if_neg hl, ← signed_tmod]
      refine .intro a _ (k % l) ?_
      have hquanta : (m.mod n).quanta = m.quanta % n.quanta := rfl
      rw [hquanta, hm, hn, Nat.mul_mod_mul_right]

theorem nearest_mul_right (hl : 0 < l) : nearest (num * l) (den * l) = nearest num den := by
  simp only [nearest, Nat.mul_div_mul_right _ _ hl, Nat.mul_right_comm den l]
  rw [roundDiv_mul_right hl]

theorem truncate_round (h : nearest num den < ceiling) :
    (round a num den).truncate? = some (signed a (nearest num den / unit)) := by
  rw [round, dif_pos h, truncate?]

theorem nearest_quotient_le (hl : 0 < l) (hk : Short k) : nearest (k * unit) l ≤ k * unit :=
  nearest_le hl (short_unit hk) (Nat.le_mul_of_pos_right _ hl)

/-- The quotient of two whole numbers is rounded once and then cut. -/
theorem truncate_div (hx : Whole x i) (hy : Whole y j) (hj : j ≠ 0) (hs : Short i.natAbs)
    (hk : i.natAbs ≤ pow2 64) :
    ∃ a b, i = signed a i.natAbs ∧ j = signed b j.natAbs ∧ (div x y).truncate? =
      some (signed (a != b) (nearest (i.natAbs * unit) j.natAbs / unit)) := by
  cases hx with
  | intro a m k hm =>
    cases hy with
    | intro b n l hn =>
      rw [natAbs_signed] at hs hk
      have hl : 0 < l := by
        rw [← natAbs_signed b l]
        exact Int.natAbs_pos.mpr hj
      have hne : n.quanta ≠ 0 := by
        rw [hn]
        exact (Nat.mul_pos hl unit_pos).ne'
      have hsame : nearest (k * unit * unit) (l * unit) = nearest (k * unit) l :=
        nearest_mul_right unit_pos
      have hlt : nearest (k * unit * unit) (l * unit) < ceiling := by
        rw [hsame]
        exact (nearest_quotient_le hl hs).trans_lt (small_of_le hk)
      refine ⟨a, b, ?_, ?_, ?_⟩
      · rw [natAbs_signed]
      · rw [natAbs_signed]
      · rw [natAbs_signed, natAbs_signed, div, if_pos hne, hm, hn, truncate_round hlt, hsame]

theorem nearest_error_nat (num : Nat) (hd : 0 < den) :
    2 * (nearest num den * den) ≤ 2 * num + den * spacing num den := by
  have hden : (0 : ℚ) < den := by exact_mod_cast hd
  have herror : |(nearest num den : ℚ) - num / den| ≤ spacing num den / 2 := by
    rcases nearest_error num hd with h | ⟨h, _⟩
    · exact h.le
    · exact h.le
  have hle : (nearest num den : ℚ) ≤ num / den + spacing num den / 2 := by
    have := (abs_le.mp herror).2
    linarith
  have hmul := mul_le_mul_of_nonneg_right hle hden.le
  rw [add_mul, div_mul_cancel₀ _ hden.ne'] at hmul
  have : (2 * (nearest num den * den) : ℚ) ≤ 2 * num + den * spacing num den := by linarith
  exact_mod_cast this

theorem dvd_pow2_of_mul {n : Nat} (h : k * l = pow2 n) (hk : k ≤ pow2 53) : k ∣ pow2 53 := by
  obtain ⟨j, _, rfl⟩ := (Nat.dvd_prime_pow Nat.prime_two).mp (Dvd.intro l h)
  exact pow_dvd_pow 2 ((Nat.pow_le_pow_iff_right (a := 2) (by decide)).mp hk)

/-- A quotient of numbers up to 2^53 that is not whole stays away from the next whole number by more
than the rounding can be off. -/
theorem nearest_lt_next (hk : k ≤ pow2 53) (hl : 0 < l) (hl' : l ≤ pow2 53) (hdvd : ¬ l ∣ k) :
    nearest (k * unit) l < (k / l + 1) * unit := by
  by_contra hge
  have hnext : (k + 1) * unit ≤ nearest (k * unit) l * l := by
    calc (k + 1) * unit
      _ ≤ (k / l + 1) * l * unit := Nat.mul_le_mul_right _ (by
          rw [Nat.mul_comm]
          exact Nat.lt_mul_div_succ k hl)
      _ = (k / l + 1) * unit * l := Nat.mul_right_comm _ _ _
      _ ≤ nearest (k * unit) l * l := Nat.mul_le_mul_right _ (Nat.le_of_not_lt hge)
  have herror := nearest_error_nat (k * unit) hl
  have hspacing : 2 * unit ≤ l * spacing (k * unit) l := by
    rw [Nat.add_mul, Nat.one_mul] at hnext
    omega
  have hdouble : pow2 53 * unit = pow2 52 * (2 * unit) := by rw [pow2_succ, Nat.mul_assoc]
  rcases spacing_cases (k * unit) l with hone | hbase
  · have hunit : pow2 53 < unit := by
      rw [unit]
      exact pow2_lt_pow2 (by decide)
    rw [hone] at hspacing
    omega
  · rw [Nat.le_div_iff_mul_le hl, Nat.mul_assoc, Nat.mul_comm _ l] at hbase
    -- Only 2^53 itself has parts so far apart, and then it is divided by a power of two.
    obtain rfl : k = pow2 53 := by
      refine Nat.le_antisymm hk (Nat.le_of_mul_le_mul_right ?_ unit_pos)
      rw [hdouble]
      exact (Nat.mul_le_mul_left _ hspacing).trans hbase
    have hprod : l * spacing (pow2 53 * unit) l = pow2 (unitLog + 1) := by
      rw [pow2_succ unitLog, ← unit, Nat.mul_comm unit]
      exact Nat.le_antisymm (Nat.le_of_mul_le_mul_left (hbase.trans_eq hdouble) (pow2_pos 52))
        hspacing
    exact hdvd (dvd_pow2_of_mul hprod hl')

theorem nearest_quotient (hk : k ≤ pow2 53) (hl : 0 < l) (hl' : l ≤ pow2 53) :
    nearest (k * unit) l / unit = k / l := by
  by_cases hdvd : l ∣ k
  · obtain ⟨q, rfl⟩ := hdvd
    have hq : Short (q * unit) :=
      short_unit (short_of_le ((Nat.le_mul_of_pos_left q hl).trans hk))
    rw [Nat.mul_div_cancel_left q hl, Nat.mul_assoc, Nat.mul_comm l, nearest_mul hl hq,
      Nat.mul_div_cancel q unit_pos]
  · have hlow : k / l * unit ≤ nearest (k * unit) l := by
      apply le_nearest hl (short_unit (short_of_le ((Nat.div_le_self k l).trans hk)))
      rw [Nat.mul_right_comm]
      exact Nat.mul_le_mul_right _ (Nat.div_mul_le_self k l)
    exact Nat.div_eq_of_lt_le hlow (nearest_lt_next hk hl hl' hdvd)

theorem truncate_quotient (hx : Whole x i) (hy : Whole y j) (hj : j ≠ 0) (hi : i.natAbs ≤ pow2 53)
    (hj' : j.natAbs ≤ pow2 53) : (div x y).truncate? = some (i.tdiv j) := by
  obtain ⟨a, b, ha, hb, h⟩ := truncate_div hx hy hj (short_of_le hi)
    (hi.trans (pow2_le_pow2 (by decide)))
  rw [h, nearest_quotient hi (Int.natAbs_pos.mpr hj) hj', signed_tdiv, ← ha, ← hb]

/-- An integer rounded to the nearest double, which is a whole number again. -/
def rounded (i : Int) : Int :=
  signed (decide (i < 0)) (nearest i.natAbs 1)

theorem nearest_one_le (h : k ≤ pow2 63) : nearest k 1 ≤ pow2 63 :=
  nearest_le Nat.one_pos (short_pow2 63) (by rwa [Nat.mul_one])

theorem whole_ofInt (h : i.natAbs ≤ pow2 63) : Whole (ofInt i) (rounded i) :=
  whole_round (nearest_unit i.natAbs) ((nearest_one_le h).trans (pow2_le_pow2 (by decide)))

/-- Integers up to 2^53 are doubles. -/
theorem rounded_eq_self (h : i.natAbs ≤ pow2 53) : rounded i = i := by
  rw [rounded, nearest_one (short_of_le h), signed_decide]

theorem whole_ofInt_self (h : i.natAbs ≤ pow2 53) : Whole (ofInt i) i := by
  have hw := whole_ofInt (h.trans (pow2_le_pow2 (by decide)))
  rwa [rounded_eq_self h] at hw

/-- The least word is a double. -/
theorem whole_minValue : Whole (ofInt Int64.minValue.toInt) (-9223372036854775808) := by
  have hr : rounded Int64.minValue.toInt = -9223372036854775808 := by decide +kernel
  rw [← hr]
  exact whole_ofInt (by decide)

/-- The greatest word is rounded up to the next power of two. -/
theorem whole_maxValue : Whole (ofInt Int64.maxValue.toInt) 9223372036854775808 := by
  have hr : rounded Int64.maxValue.toInt = 9223372036854775808 := by decide +kernel
  rw [← hr]
  exact whole_ofInt (by decide)

theorem whole_trunc (h : x.truncate? = some i) : x.trunc.isFinite = true ∧ Whole x.trunc i := by
  cases x with
  | finite negative m =>
    obtain rfl := Option.some.inj h
    exact ⟨rfl, .intro negative m.whole (m.quanta / unit) rfl⟩
  | infinite negative => cases h
  | nan => cases h

theorem lt_whole (hx : Whole x i) (hy : Whole y j) : x.lt y = true ↔ i < j := by
  have hu : (0 : Int) < unit := by exact_mod_cast unit_pos
  rw [lt, compare, key?_whole hx, key?_whole hy]
  exact decide_eq_true_iff.trans (mul_lt_mul_iff_left₀ hu)

theorem le_whole (hx : Whole x i) (hy : Whole y j) : x.le y = true ↔ i ≤ j := by
  have hu : (0 : Int) < unit := by exact_mod_cast unit_pos
  rw [le, compare, key?_whole hx, key?_whole hy]
  exact decide_eq_true_iff.trans (mul_le_mul_iff_left₀ hu)

/-- The bounds on the double are those of the words: the upper one is rounded up to 2^63, and is
itself left out. -/
theorem toInt64?_eq_narrow (x : Binary64) : x.toInt64? = x.truncate?.bind narrow? := by
  cases ht : x.truncate? with
  | none =>
    cases x with
    | finite negative m => cases ht
    | infinite negative => rfl
    | nan => rfl
  | some n =>
    obtain ⟨hfinite, hw⟩ := whole_trunc ht
    have hout : (!x.trunc.isFinite || x.trunc.lt (ofInt Int64.minValue.toInt) ||
        (ofInt Int64.maxValue.toInt).le x.trunc) = true ↔
          n < -9223372036854775808 ∨ 9223372036854775808 ≤ n := by
      simp only [hfinite, Bool.not_true, Bool.false_or, Bool.or_eq_true,
        lt_whole hw whole_minValue, le_whole whole_maxValue hw]
    rw [toInt64?, Option.bind_some, narrow?]
    by_cases hn : -9223372036854775808 ≤ n ∧ n < 9223372036854775808
    · rw [if_pos hn, if_neg (hout.not.mpr (by omega)), truncate_whole hw, Option.map_some]
    · rw [if_neg hn, if_pos (hout.mpr (by omega))]

end Scriptlet.Binary64
