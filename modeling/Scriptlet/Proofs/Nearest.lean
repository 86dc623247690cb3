import Mathlib
import Scriptlet.Binary64.Basic

/-!
Rounding to the nearest double. Among the numbers of 53 binary digits none is nearer to a fraction
than the one it is rounded to, and of two that are equally near it is the one that ends in zero.
From the middle between the greatest finite double and the power of two beyond it on, a fraction is
rounded to infinity.
-/

namespace Scriptlet.Binary64

variable {num den m n k : Nat}

@[simp] theorem signed_false (k : Nat) : signed false k = k := rfl

@[simp] theorem signed_true (k : Nat) : signed true k = -k := rfl

theorem natAbs_signed (a : Bool) (k : Nat) : (signed a k).natAbs = k := by
  cases a <;> simp

/-- The three cases of a rounding, by the rest of the division. -/
theorem roundDiv_cases (num den : Nat) :
    2 * (num % den) < den ∧ roundDiv num den = num / den ∨
      den < 2 * (num % den) ∧ roundDiv num den = num / den + 1 ∨
      2 * (num % den) = den ∧ roundDiv num den = num / den + num / den % 2 := by
  simp only [roundDiv]
  split_ifs <;> omega

theorem div_eq_quotient (num : Nat) (hd : 0 < den) :
    (num : ℚ) / den = (num / den : Nat) + (num % den : Nat) / (den : ℚ) := by
  have h : ((den * (num / den) + num % den : Nat) : ℚ) = num := by rw [Nat.div_add_mod]
  field_simp
  rw [← h]
  push_cast
  ring

/-- A rounding is off by a half at most, and only an even number is off by a half. -/
theorem roundDiv_error (num : Nat) (hd : 0 < den) :
    |(roundDiv num den : ℚ) - num / den| < 1 / 2 ∨
      |(roundDiv num den : ℚ) - num / den| = 1 / 2 ∧ roundDiv num den % 2 = 0 := by
  have hden : (0 : ℚ) < den := by exact_mod_cast hd
  rw [div_eq_quotient num hd]
  rcases roundDiv_cases num den with ⟨h, hr⟩ | ⟨h, hr⟩ | ⟨h, hr⟩
  · left
    have hq : ((num % den : Nat) : ℚ) / den < 1 / 2 := by
      rw [div_lt_div_iff₀ hden two_pos]
      exact_mod_cast (by omega : num % den * 2 < 1 * den)
    have h0 : (0 : ℚ) ≤ ((num % den : Nat) : ℚ) / den := by positivity
    rw [hr, abs_lt]
    constructor <;> linarith
  · left
    have hq : 1 / 2 < ((num % den : Nat) : ℚ) / den := by
      rw [div_lt_div_iff₀ two_pos hden]
      exact_mod_cast (by omega : 1 * den < num % den * 2)
    have h1 : ((num % den : Nat) : ℚ) / den ≤ 1 := by
      rw [div_le_one hden]
      exact_mod_cast (Nat.mod_lt num hd).le
    rw [hr, abs_lt]
    push_cast
    constructor <;> linarith
  · right
    have hq : ((num % den : Nat) : ℚ) / den = 1 / 2 := by
      rw [div_eq_div_iff hden.ne' two_ne_zero]
      exact_mod_cast (by omega : num % den * 2 = 1 * den)
    refine ⟨?_, by omega⟩
    rw [hr, hq]
    rcases Nat.mod_two_eq_zero_or_one (num / den) with h2 | h2
    · rw [h2]
      norm_num
    · rw [h2]
      norm_num

/-- The distance between the numbers of 53 binary digits about a fraction. -/
def spacing (num den : Nat) : Nat :=
  pow2 (excess (num / den))

theorem spacing_pos (num den : Nat) : 0 < spacing num den := pow2_pos _

/-- How many spacings a fraction is rounded to. -/
def steps (num den : Nat) : Nat :=
  roundDiv num (den * spacing num den)

theorem nearest_eq_steps : nearest num den = steps num den * spacing num den := rfl

theorem nearest_error (num : Nat) (hd : 0 < den) :
    |(nearest num den : ℚ) - num / den| < spacing num den / 2 ∨
      |(nearest num den : ℚ) - num / den| = spacing num den / 2 ∧ steps num den % 2 = 0 := by
  have hs : (0 : ℚ) < spacing num den := by exact_mod_cast spacing_pos num den
  have hscale : (nearest num den : ℚ) - num / den =
      spacing num den * ((steps num den : ℚ) - num / (den * spacing num den : Nat)) := by
    rw [nearest_eq_steps]
    push_cast
    field_simp
  have hhalf : (spacing num den : ℚ) / 2 = spacing num den * (1 / 2) := by ring
  rw [hscale, abs_mul, abs_of_pos hs, hhalf]
  rcases roundDiv_error num (Nat.mul_pos hd (spacing_pos num den)) with h | ⟨h, he⟩
  · exact Or.inl (mul_lt_mul_of_pos_left h hs)
  · exact Or.inr ⟨congrArg _ h, he⟩

/-- Among the multiples of the spacing none is nearer. -/
theorem nearest_le_multiple (num : Nat) (hd : 0 < den) (k : Nat) :
    |(nearest num den : ℚ) - num / den| ≤ |((k * spacing num den : Nat) : ℚ) - num / den| ∧
      (|((k * spacing num den : Nat) : ℚ) - num / den| = |(nearest num den : ℚ) - num / den| →
        k * spacing num den = nearest num den ∨ steps num den % 2 = 0) := by
  by_cases hk : k = steps num den
  · subst hk
    exact ⟨le_rfl, fun _ => Or.inl rfl⟩
  · have hs : (0 : ℚ) < spacing num den := by exact_mod_cast spacing_pos num den
    -- Two multiples are a spacing apart, so that the fraction is within half of one only.
    have hone : (1 : ℚ) ≤ |(k : ℚ) - steps num den| := by
      have hz : (k : ℤ) - steps num den ≠ 0 := by omega
      exact_mod_cast Int.one_le_abs hz
    have hapart : (spacing num den : ℚ) ≤
        |((k * spacing num den : Nat) : ℚ) - (nearest num den : ℚ)| := by
      rw [nearest_eq_steps, Nat.cast_mul, Nat.cast_mul, ← sub_mul, abs_mul, abs_of_pos hs]
      exact le_mul_of_one_le_left hs.le hone
    have htri := abs_sub_le ((k * spacing num den : Nat) : ℚ) (num / den) (nearest num den)
    rw [abs_sub_comm ((num : ℚ) / den)] at htri
    rcases nearest_error num hd with h | ⟨h, he⟩
    · exact ⟨by linarith, fun heq => by linarith⟩
    · exact ⟨by linarith, fun _ => Or.inr he⟩

theorem dvd_of_short (h : Short m) (hle : pow2 (52 + k) ≤ m) : pow2 k ∣ m := by
  obtain ⟨c, s, rfl, hc⟩ := h
  have hlt : pow2 (52 + k) < pow2 (53 + s) := by
    rw [pow2_add 53]
    exact hle.trans_lt (Nat.mul_lt_mul_of_pos_right hc (pow2_pos s))
  have hks : k ≤ s := by
    have := (Nat.pow_lt_pow_iff_right (a := 2) (by decide)).mp hlt
    omega
  exact Dvd.dvd.mul_left (pow_dvd_pow 2 hks) c

theorem pow2_excess_le (h : 0 < excess n) : pow2 (52 + excess n) ≤ n := by
  have hlog : 52 + excess n = n.log2 := by
    simp only [excess] at h ⊢
    omega
  rw [hlog]
  apply pow2_log2_le
  rintro rfl
  simp [excess] at h

theorem spacing_cases (num den : Nat) :
    spacing num den = 1 ∨ pow2 52 * spacing num den ≤ num / den := by
  rcases Nat.eq_zero_or_pos (excess (num / den)) with he | he
  · left
    rw [spacing, he]
    rfl
  · right
    rw [spacing, ← pow2_add]
    exact pow2_excess_le he

/-- A number of 53 binary digits is a multiple of the spacing, or below all the multiples about the
fraction. -/
theorem short_cases (num den : Nat) (h : Short m) :
    spacing num den ∣ m ∨
      m < pow2 52 * spacing num den ∧ pow2 52 * spacing num den ≤ num / den := by
  rcases spacing_cases num den with hone | hbase
  · rw [hone]
    exact Or.inl (one_dvd m)
  · obtain hm | hm := Nat.lt_or_ge m (pow2 52 * spacing num den)
    · exact Or.inr ⟨hm, hbase⟩
    · rw [spacing, ← pow2_add] at hm
      exact Or.inl (dvd_of_short h hm)

/-- No number of 53 binary digits is nearer to a fraction than the one it is rounded to, and if
another is as near, that one is an even number of spacings. -/
theorem nearest_least (num : Nat) (hd : 0 < den) (h : Short m) :
    |(nearest num den : ℚ) - num / den| ≤ |(m : ℚ) - num / den| ∧
      (|(m : ℚ) - num / den| = |(nearest num den : ℚ) - num / den| →
        m = nearest num den ∨ steps num den % 2 = 0) := by
  rcases short_cases num den h with ⟨k, rfl⟩ | ⟨hlow, hbase⟩
  · rw [Nat.mul_comm]
    exact nearest_le_multiple num hd k
  · have hfloor : ((num / den : Nat) : ℚ) ≤ num / den := Nat.cast_div_le
    have hbase' : ((pow2 52 * spacing num den : Nat) : ℚ) ≤ (num / den : Nat) := by
      exact_mod_cast hbase
    have hlow' : (m : ℚ) < (pow2 52 * spacing num den : Nat) := by exact_mod_cast hlow
    have hnear := (nearest_le_multiple num hd (pow2 52)).1
    have hbelow : ((pow2 52 * spacing num den : Nat) : ℚ) - num / den ≤ 0 := by linarith
    rw [abs_of_nonpos hbelow] at hnear
    rw [abs_of_neg (by linarith : (m : ℚ) - num / den < 0)]
    exact ⟨by linarith, fun heq => by linarith⟩

theorem short_zero : Short 0 := short_of_lt (by decide)

theorem nearest_least_int (num : Nat) (hd : 0 < den) {p : ℤ} (h : Short p.natAbs) :
    |(nearest num den : ℚ) - num / den| ≤ |(p : ℚ) - num / den| ∧
      (|(p : ℚ) - num / den| = |(nearest num den : ℚ) - num / den| →
        p = nearest num den ∨ steps num den % 2 = 0) := by
  obtain hp | hp := le_or_gt 0 p
  · obtain ⟨k, rfl⟩ := Int.eq_ofNat_of_zero_le hp
    exact_mod_cast nearest_least num hd h
  · -- A negative number is farther off than zero.
    have hzero := (nearest_least num hd short_zero).1
    have hq : (0 : ℚ) ≤ (num : ℚ) / den := by positivity
    have hp' : (p : ℚ) < 0 := by exact_mod_cast hp
    rw [Nat.cast_zero, zero_sub, abs_neg, abs_of_nonneg hq] at hzero
    rw [abs_of_neg (by linarith : (p : ℚ) - num / den < 0)]
    exact ⟨by linarith, fun heq => by linarith⟩

theorem nearest_mul (hd : 0 < den) (h : Short n) : nearest (n * den) den = n := by
  have hq : ((n * den : Nat) : ℚ) / den = n := by
    push_cast
    field_simp
  have hle := (nearest_least (n * den) hd h).1
  rw [hq, sub_self, abs_zero] at hle
  exact_mod_cast sub_eq_zero.mp (abs_nonpos_iff.mp hle)

theorem nearest_one (h : Short n) : nearest n 1 = n := by
  have hn := nearest_mul Nat.one_pos h
  rwa [Nat.mul_one] at hn

theorem le_nearest (hd : 0 < den) (h : Short n) (hle : n * den ≤ num) : n ≤ nearest num den := by
  by_contra hlt
  have hq : (n : ℚ) ≤ num / den := by
    rw [le_div_iff₀ (by exact_mod_cast hd)]
    exact_mod_cast hle
  have hlt' : (nearest num den : ℚ) < n := by exact_mod_cast Nat.lt_of_not_le hlt
  have hnear := (nearest_least num hd h).1
  rw [abs_of_nonpos (by linarith), abs_of_nonpos (by linarith)] at hnear
  linarith

theorem nearest_le (hd : 0 < den) (h : Short n) (hle : num ≤ n * den) : nearest num den ≤ n := by
  by_contra hlt
  have hq : (num : ℚ) / den ≤ n := by
    rw [div_le_iff₀ (by exact_mod_cast hd)]
    exact_mod_cast hle
  have hlt' : (n : ℚ) < nearest num den := by exact_mod_cast Nat.lt_of_not_le hlt
  have hnear := (nearest_least num hd h).1
  rw [abs_of_nonneg (by linarith), abs_of_nonneg (by linarith)] at hnear
  linarith

/-- The 53 binary digits that a magnitude is written with, fewer only below the normal range. -/
def significand (quanta : Nat) : Nat :=
  quanta / pow2 (excess quanta)

theorem excess_mul_pow2 {c s : Nat} (hc : c < pow2 53) (h : s = 0 ∨ pow2 52 ≤ c) :
    excess (c * pow2 s) = s := by
  have hhigh : c * pow2 s < pow2 (53 + s) := by
    rw [pow2_add]
    exact Nat.mul_lt_mul_of_pos_right hc (pow2_pos s)
  have hlt : (c * pow2 s).log2 < 53 + s := by
    by_cases h0 : c * pow2 s = 0
    · rw [h0]
      simp
    · exact (Nat.log2_lt h0).mpr hhigh
  have hge : s ≤ (c * pow2 s).log2 - 52 := by
    rcases h with rfl | h
    · exact Nat.zero_le _
    · have hlow : pow2 (52 + s) ≤ c * pow2 s := by
        rw [pow2_add]
        exact Nat.mul_le_mul_right _ h
      have hne : c * pow2 s ≠ 0 := (lt_of_lt_of_le (pow2_pos _) hlow).ne'
      have := (Nat.le_log2 hne).mpr hlow
      omega
  rw [excess]
  omega

theorem significand_mul_pow2 {c s : Nat} (hc : c < pow2 53) (h : s = 0 ∨ pow2 52 ≤ c) :
    significand (c * pow2 s) = c := by
  rw [significand, excess_mul_pow2 hc h, Nat.mul_div_cancel _ (pow2_pos s)]

theorem steps_ge (h : 0 < excess (num / den)) : pow2 52 ≤ steps num den := by
  refine le_trans ?_ (le_roundDiv num (den * spacing num den))
  rw [← Nat.div_div_eq_div_mul, Nat.le_div_iff_mul_le (spacing_pos num den), spacing, ← pow2_add]
  exact pow2_excess_le h

/-- An even number of spacings has an even significand, also where it carries into a digit more. -/
theorem significand_nearest (h : steps num den % 2 = 0) :
    significand (nearest num den) % 2 = 0 := by
  obtain hlt | heq := Nat.lt_or_eq_of_le (roundDiv_excess_le num den)
  · have hs : excess (num / den) = 0 ∨ pow2 52 ≤ steps num den := by
      rcases Nat.eq_zero_or_pos (excess (num / den)) with he | he
      · exact Or.inl he
      · exact Or.inr (steps_ge he)
    have hsame : significand (nearest num den) = steps num den := significand_mul_pow2 hlt hs
    rwa [hsame]
  · have hcarry : nearest num den = pow2 52 * pow2 (excess (num / den) + 1) := by
      rw [nearest, heq, pow2_succ 52, pow2_succ (excess (num / den)), Nat.mul_assoc, Nat.mul_comm 2]
    rw [hcarry, significand_mul_pow2 (by decide) (Or.inr le_rfl)]
    rfl

/-- The exact value of a finite double. -/
def value? : Binary64 → Option ℚ
  | .finite negative m => some (signed negative m.quanta / unit)
  | _ => none

/-- The last binary digit of the significand is zero. -/
def EndsInZero : Binary64 → Prop
  | .finite _ m => significand m.quanta % 2 = 0
  | _ => False

/-- A finite double to which no other is nearer, and which ends in zero if another is as near. -/
structure NearestTo (q : ℚ) (x : Binary64) (v : ℚ) : Prop where
  value : x.value? = some v
  least : ∀ y w, value? y = some w → |v - q| ≤ |w - q|
  tie : ∀ y w, value? y = some w → |w - q| = |v - q| → w = v ∨ x.EndsInZero

theorem value?_eq_some {x : Binary64} {v : ℚ} (h : x.value? = some v) :
    ∃ p : ℤ, Short p.natAbs ∧ v = p / unit := by
  cases x with
  | finite negative m =>
    refine ⟨signed negative m.quanta, ?_, (Option.some.inj h).symm⟩
    rw [natAbs_signed]
    exact m.short
  | infinite negative => cases h
  | nan => cases h

theorem signed_mul_self (negative : Bool) (k : Nat) :
    signed negative 1 * signed negative k = k := by
  cases negative <;> simp

/-- Distances are the same on both sides of zero. -/
theorem abs_sub_signed (negative : Bool) (p : ℤ) (num : Nat) (d : ℚ) :
    |(p : ℚ) - signed negative num / d| = |((signed negative 1 * p : ℤ) : ℚ) - num / d| := by
  cases negative with
  | false => simp
  | true =>
    rw [← abs_neg]
    congr 1
    simp only [signed_true]
    push_cast
    ring

/-- A rounded fraction is the nearest double to it, unless it leaves the range. -/
theorem nearestTo_round (negative : Bool) (num : Nat) (hd : 0 < den)
    (h : nearest num den < ceiling) :
    NearestTo (signed negative num / den / unit) (round negative num den)
      (signed negative (nearest num den) / unit) := by
  have hu : (0 : ℚ) < unit := by exact_mod_cast unit_pos
  have hround : round negative num den =
      .finite negative ⟨nearest num den, h, short_nearest num den⟩ := dif_pos h
  have hdist : ∀ p : ℤ, |(p : ℚ) / unit - signed negative num / den / unit| =
      |((signed negative 1 * p : ℤ) : ℚ) - num / den| / unit := by
    intro p
    rw [← sub_div, abs_div, abs_of_pos hu, abs_sub_signed]
  have hshort : ∀ p : ℤ, Short p.natAbs → Short (signed negative 1 * p).natAbs := by
    intro p hp
    cases negative <;> simpa using hp
  constructor
  · rw [hround]
    rfl
  · intro y w hw
    obtain ⟨p, hp, rfl⟩ := value?_eq_some hw
    rw [hdist, hdist, signed_mul_self, Int.cast_natCast]
    exact div_le_div_of_nonneg_right (nearest_least_int num hd (hshort p hp)).1 hu.le
  · intro y w hw heq
    obtain ⟨p, hp, rfl⟩ := value?_eq_some hw
    rw [hdist, hdist, signed_mul_self, Int.cast_natCast, div_left_inj' hu.ne'] at heq
    rcases (nearest_least_int num hd (hshort p hp)).2 heq with hsame | heven
    · left
      have hp' : p = signed negative (nearest num den) := by
        cases negative <;> simp only [signed_false, signed_true] at hsame ⊢ <;> omega
      rw [hp']
    · right
      rw [hround]
      exact significand_nearest heven

theorem pow2_lt_pow2 {k l : Nat} (h : k < l) : pow2 k < pow2 l :=
  Nat.pow_lt_pow_right (by decide) h

theorem short_pow2 (n : Nat) : Short (pow2 n) :=
  ⟨1, n, (Nat.one_mul _).symm, by decide⟩

/-- A fraction is rounded up to an even number from the middle between it and the one before. -/
theorem roundDiv_lt_iff {k : Nat} (hd : 0 < den) (hk : k % 2 = 0) :
    roundDiv num den < k ↔ 2 * num < (2 * k - 1) * den := by
  have hnum := Nat.div_add_mod num den
  have hrest := Nat.mod_lt num hd
  rcases lt_trichotomy (num / den + 1) k with hlt | rfl | hgt
  · refine iff_of_true ((roundDiv_le num den).trans_lt hlt) ?_
    have hle : den * (num / den + 2) ≤ den * k := Nat.mul_le_mul_left _ hlt
    rw [Nat.sub_mul, Nat.mul_assoc, Nat.mul_comm k den]
    rw [Nat.mul_add] at hle
    omega
  · have hodd : (2 * (num / den + 1) - 1) * den = 2 * (den * (num / den)) + den := by
      rw [Nat.mul_add, Nat.add_sub_assoc (by decide), Nat.add_mul, Nat.mul_assoc, Nat.mul_comm den]
      omega
    rw [hodd]
    rcases roundDiv_cases num den with ⟨_, _⟩ | ⟨_, _⟩ | ⟨_, _⟩ <;> omega
  · have hle : den * k ≤ den * (num / den) := Nat.mul_le_mul_left _ (by omega)
    refine iff_of_false ((le_roundDiv num den).trans' (by omega)).not_gt ?_
    rw [Nat.sub_mul, Nat.mul_assoc, Nat.mul_comm k den]
    omega

/-- The middle between the greatest finite double and the power of two beyond it, in quanta. -/
def limit : Nat :=
  (pow2 54 - 1) * pow2 2044

theorem log2_eq_of_pow2 {k : Nat} (hlow : pow2 k ≤ n) (hhigh : n < pow2 (k + 1)) : n.log2 = k := by
  rw [Nat.log2_eq_iff (hlow.trans_lt' (pow2_pos k)).ne']
  exact ⟨hlow, hhigh⟩

theorem ceiling_eq : ceiling = pow2 53 * pow2 2045 :=
  pow2_add 53 2045

/-- Below the last power of two the doubles are 2^2045 quanta apart. -/
theorem spacing_last (hd : 0 < den) (hge : pow2 2097 * den ≤ num) (hlt : num < ceiling * den) :
    spacing num den = pow2 2045 := by
  have hlow : pow2 2097 ≤ num / den := (Nat.le_div_iff_mul_le hd).mpr hge
  have hhigh : num / den < pow2 2098 := (Nat.div_lt_iff_lt_mul hd).mpr hlt
  rw [spacing, excess, log2_eq_of_pow2 hlow hhigh]

/-- A fraction is rounded to a finite double exactly below the limit. -/
theorem nearest_lt_ceiling_iff (hd : 0 < den) : nearest num den < ceiling ↔ num < limit * den := by
  have hlow : pow2 2097 ≤ limit := by
    have h : pow2 2097 = pow2 53 * pow2 2044 := pow2_add 53 2044
    rw [h, limit]
    exact Nat.mul_le_mul_right _ (by decide)
  have hhigh : limit ≤ ceiling := by
    have h : ceiling = pow2 54 * pow2 2044 := pow2_add 54 2044
    rw [h, limit]
    exact Nat.mul_le_mul_right _ (by decide)
  obtain hlt | hge := Nat.lt_or_ge num (pow2 2097 * den)
  · refine iff_of_true ?_ (hlt.trans_le (Nat.mul_le_mul_right _ hlow))
    exact (nearest_le hd (short_pow2 2097) hlt.le).trans_lt (pow2_lt_pow2 (by decide))
  obtain hlt | hge' := Nat.lt_or_ge num (ceiling * den)
  · have hstep : (2 * pow2 53 - 1) * (den * pow2 2045) = 2 * (limit * den) := by
      have h54 : 2 * pow2 53 - 1 = pow2 54 - 1 := rfl
      rw [h54, limit, pow2_succ 2044]
      ring
    rw [nearest_eq_steps, steps, spacing_last hd hge hlt, ceiling_eq,
      Nat.mul_lt_mul_right (pow2_pos 2045),
      roundDiv_lt_iff (Nat.mul_pos hd (pow2_pos 2045)) (by decide), hstep,
      Nat.mul_lt_mul_left (by decide)]
  · refine iff_of_false (le_nearest hd (short_pow2 2098) hge').not_gt ?_
    exact ((Nat.mul_le_mul_right _ hhigh).trans hge').not_gt

/-- The double to which a fraction that is not negative is rounded: the nearest one, and infinity
from the middle between the greatest finite double and 2^1024 on. -/
inductive RoundsTo (q : ℚ) : Binary64 → Prop where
  | nearest {m : Magnitude} {v : ℚ} : q < (2 ^ 54 - 1) * 2 ^ 970 →
      NearestTo q (.finite false m) v → RoundsTo q (.finite false m)
  | infinite : (2 ^ 54 - 1) * 2 ^ 970 ≤ q → RoundsTo q (.infinite false)

theorem cast_pow2 (n : Nat) : ((pow2 n : Nat) : ℚ) = 2 ^ n := by
  have h : pow2 n = 2 ^ n := rfl
  rw [h, Nat.cast_pow, Nat.cast_ofNat]

theorem limit_eq : (limit : ℚ) = (2 ^ 54 - 1) * 2 ^ 970 * unit := by
  have hsplit : limit = (pow2 54 - 1) * pow2 970 * unit := by
    have h : pow2 2044 = pow2 970 * pow2 unitLog := pow2_add 970 unitLog
    rw [limit, h, unit, Nat.mul_assoc]
  have h54 : ((pow2 54 - 1 : Nat) : ℚ) = 2 ^ 54 - 1 := by
    rw [Nat.cast_sub (pow2_pos 54), cast_pow2, Nat.cast_one]
  rw [hsplit, Nat.cast_mul, Nat.cast_mul, h54, cast_pow2]

theorem roundsTo_round (num : Nat) (hd : 0 < den) :
    RoundsTo (num / den / unit) (round false num den) := by
  have hu : (0 : ℚ) < unit := by exact_mod_cast unit_pos
  have hden : (0 : ℚ) < den := by exact_mod_cast hd
  have hbound : (num : ℚ) / den / unit < (2 ^ 54 - 1) * 2 ^ 970 ↔ nearest num den < ceiling := by
    rw [div_lt_iff₀ hu, ← limit_eq, div_lt_iff₀ hden, nearest_lt_ceiling_iff hd]
    exact_mod_cast Iff.rfl
  by_cases h : nearest num den < ceiling
  · have hnear := nearestTo_round false num hd h
    have hround : round false num den = .finite false ⟨_, h, short_nearest num den⟩ := dif_pos h
    rw [signed_false, Int.cast_natCast, hround] at hnear
    rw [hround]
    exact .nearest (hbound.mpr h) hnear
  · have hround : round false num den = .infinite false := dif_neg h
    rw [hround]
    exact .infinite (not_lt.mp (hbound.not.mpr h))

end Scriptlet.Binary64
