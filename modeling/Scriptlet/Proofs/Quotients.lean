import Scriptlet.Proofs.Integers

/-!
Quotients and remainders of any two integers. Both are computed from the nearest doubles, and the
512 greatest integers are rounded up to 2^63, which is no longer an integer of 64 bits.
-/

namespace Scriptlet

theorem narrow?_eq_none_iff {n : Int} :
    narrow? n = none ↔ n < -9223372036854775808 ∨ 9223372036854775808 ≤ n := by
  unfold narrow?
  split <;> simp only [reduceCtorEq, true_iff, false_iff] <;> omega

namespace Binary64

variable {i j t : Int} {k l n : Nat}

theorem nearestTo_ofInt (h : i.natAbs ≤ pow2 63) : NearestTo i (ofInt i) (rounded i) := by
  have hu : (unit : ℚ) ≠ 0 := by exact_mod_cast unit_pos.ne'
  have hlt : nearest (i.natAbs * unit) 1 < ceiling := by
    rw [nearest_unit]
    exact small_of_le ((nearest_one_le h).trans (pow2_le_pow2 (by decide)))
  have hround := nearestTo_round (decide (i < 0)) (i.natAbs * unit) Nat.one_pos hlt
  rw [nearest_unit, signed_mul_nat, signed_mul_nat, signed_decide, ← rounded, Int.cast_mul,
    Int.cast_mul, Int.cast_natCast, Nat.cast_one, div_one, mul_div_cancel_right₀ _ hu,
    mul_div_cancel_right₀ _ hu] at hround
  exact hround

theorem natAbs_rounded (i : Int) : (rounded i).natAbs = nearest i.natAbs 1 :=
  natAbs_signed _ _

theorem natAbs_rounded_le (h : i.natAbs ≤ pow2 63) : (rounded i).natAbs ≤ pow2 63 := by
  rw [natAbs_rounded]
  exact nearest_one_le h

theorem nearest_one_eq_one_iff : nearest n 1 = 1 ↔ n = 1 := by
  obtain hlt | hge := Nat.lt_or_ge n 2
  · rw [nearest_one (short_of_lt (hlt.trans (by decide)))]
  · have : 2 ≤ nearest n 1 := le_nearest Nat.one_pos (short_of_lt (by decide)) (by omega)
    omega

/-- Between 2^62 and 2^63 the doubles are 1024 apart. -/
theorem spacing_top (hge : pow2 62 ≤ n) (hlt : n < pow2 63) : spacing n 1 = 1024 := by
  rw [spacing, Nat.div_one, excess, log2_eq_of_pow2 hge hlt]
  rfl

/-- From 2^63 - 512 on, a tie, integers are rounded to 2^63. -/
theorem nearest_one_top (h : n ≤ pow2 63) : nearest n 1 = pow2 63 ↔ pow2 63 - 512 ≤ n := by
  have h62 : pow2 62 = 4611686018427387904 := rfl
  have h63 : pow2 63 = 9223372036854775808 := rfl
  obtain hlow | hge := Nat.lt_or_ge n (pow2 62)
  · have : nearest n 1 ≤ pow2 62 := nearest_le Nat.one_pos (short_pow2 62) (by omega)
    omega
  · obtain hlt | rfl := Nat.lt_or_eq_of_le h
    · have hsteps : nearest n 1 = roundDiv n 1024 * 1024 := by
        rw [nearest_eq_steps, steps, spacing_top hge hlt]
      rcases roundDiv_cases n 1024 with ⟨_, hr⟩ | ⟨_, hr⟩ | ⟨_, hr⟩ <;> omega
    · exact iff_of_true (nearest_one (short_pow2 63)) (Nat.sub_le _ _)

theorem rounded_ne_zero (h : i ≠ 0) : rounded i ≠ 0 := by
  have : 1 ≤ nearest i.natAbs 1 :=
    le_nearest Nat.one_pos (short_of_lt (by decide)) (by omega)
  have := natAbs_rounded i
  omega

theorem rounded_eq (i : Int) :
    0 ≤ i ∧ rounded i = nearest i.natAbs 1 ∨ i < 0 ∧ rounded i = -nearest i.natAbs 1 := by
  obtain h | h := le_or_gt 0 i
  · left
    rw [rounded, decide_eq_false h.not_gt]
    exact ⟨h, rfl⟩
  · right
    rw [rounded, decide_eq_true h]
    exact ⟨h, rfl⟩

theorem rounded_neg (i : Int) : rounded (-i) = -rounded i := by
  by_cases h : i = 0
  · rw [h, Int.neg_zero, rounded_eq_self (by decide), Int.neg_zero]
  · have habs := rounded_eq (-i)
    rw [Int.natAbs_neg] at habs
    rcases rounded_eq i with ⟨_, _⟩ | ⟨_, _⟩ <;> omega

theorem rounded_eq_one_iff : rounded i = 1 ↔ i = 1 := by
  have := nearest_one_eq_one_iff (n := i.natAbs)
  rcases rounded_eq i with ⟨_, _⟩ | ⟨_, _⟩ <;> omega

theorem rounded_eq_top_iff (h : i.natAbs ≤ pow2 63) : rounded i = pow2 63 ↔ 2 ^ 63 - 512 ≤ i := by
  have h63 : pow2 63 = 9223372036854775808 := rfl
  have := nearest_one_top h
  rcases rounded_eq i with ⟨_, _⟩ | ⟨_, _⟩ <;> omega

/-- A rounded quotient of numbers up to 2^63 reaches 2^63 only when that is divided by one. -/
theorem quotient_top (hs : Short k) (hk : k ≤ pow2 63) (hl : 0 < l) :
    nearest (k * unit) l / unit ≤ pow2 63 ∧
      (nearest (k * unit) l / unit = pow2 63 ↔ k = pow2 63 ∧ l = 1) := by
  obtain rfl | hl2 : l = 1 ∨ 2 ≤ l := by omega
  · rw [nearest_one (short_unit hs), Nat.mul_div_cancel k unit_pos]
    exact ⟨hk, by omega⟩
  · have hle : k * unit ≤ pow2 62 * unit * l := by
      rw [Nat.mul_right_comm]
      refine Nat.mul_le_mul_right _ (hk.trans ?_)
      rw [pow2_succ 62]
      exact Nat.mul_le_mul_left _ hl2
    have hhalf : nearest (k * unit) l / unit ≤ pow2 62 := by
      rw [← Nat.mul_div_cancel (pow2 62) unit_pos]
      exact Nat.div_le_div_right (nearest_le hl (short_unit (short_pow2 62)) hle)
    have hlt : pow2 62 < pow2 63 := by decide
    omega

/-- Of the numbers up to 2^63 in size only 2^63 itself is not an integer of 64 bits. -/
theorem narrow?_quotient {a b : Bool} {q : Nat}
    (h : q ≤ pow2 63 ∧ (q = pow2 63 ↔ k = pow2 63 ∧ l = 1)) :
    narrow? (signed (a != b) q) = none ↔
      signed b l = 1 ∧ signed a k = pow2 63 ∨ signed b l = -1 ∧ signed a k = -pow2 63 := by
  have h63 : pow2 63 = 9223372036854775808 := rfl
  rw [narrow?_eq_none_iff]
  cases a <;> cases b <;>
    simp only [bne_self_eq_false, Bool.false_bne, Bool.bne_false, signed_false, signed_true] <;>
    omega

theorem truncate_div_ofInt (hi : i.natAbs ≤ pow2 63) (hj : j.natAbs ≤ pow2 63) (h0 : j ≠ 0) :
    ∃ t, (div (ofInt i) (ofInt j)).truncate? = some t ∧
      (narrow? t = none ↔
        rounded j = 1 ∧ rounded i = pow2 63 ∨ rounded j = -1 ∧ rounded i = -pow2 63) := by
  have hshort : Short (rounded i).natAbs := by
    rw [natAbs_rounded]
    exact short_nearest _ _
  have hle := natAbs_rounded_le hi
  have hne := rounded_ne_zero h0
  obtain ⟨a, b, ha, hb, ht⟩ := truncate_div (whole_ofInt hi) (whole_ofInt hj) hne hshort
    (hle.trans (pow2_le_pow2 (by decide)))
  have hnone := narrow?_quotient (a := a) (b := b)
    (quotient_top hshort hle (Int.natAbs_pos.mpr hne))
  rw [← ha, ← hb] at hnone
  exact ⟨_, ht, hnone⟩

end Binary64

open Binary64

variable {op : Operator} {a b : Int64}

theorem natAbs_toInt_le (w : Int64) : w.toInt.natAbs ≤ pow2 63 := by
  have hl := w.le_toInt
  have hu := w.toInt_lt
  have h63 : pow2 63 = 9223372036854775808 := rfl
  omega

theorem toInt_ne_zero (h : b ≠ 0) : b.toInt ≠ 0 := by
  rwa [Ne, ← Int64.toInt_zero, Int64.toInt_inj]

theorem arithmetic_divisionByZero_iff (hop : op = .div ∨ op = .mod) :
    Value.arithmetic op (.integer a) (.integer b) = .error .divisionByZero ↔ b = 0 := by
  have hd := divides_iff.mpr hop
  obtain ⟨f, hf⟩ : ∃ f, op.arithmetic? = some f := by
    rcases hop with rfl | rfl <;> exact ⟨_, rfl⟩
  rw [arithmetic_integer hf]
  constructor
  · intro h
    by_contra hb
    rw [if_neg (fun hz => hb hz.2)] at h
    cases (ofResult_error h).2
  · intro hb
    rw [if_pos ⟨hd, hb⟩]

/-- A remainder is smaller than its divisor, so that it is always an integer of 64 bits. -/
theorem arithmetic_mod (hb : b ≠ 0) :
    ∃ r : Int64, r.toInt = (rounded a.toInt).tmod (rounded b.toInt) ∧
      r.toInt.natAbs < (rounded b.toInt).natAbs ∧
      Value.arithmetic .mod (.integer a) (.integer b) = .ok (.integer r) := by
  have hne := rounded_ne_zero (toInt_ne_zero hb)
  have hw := whole_rem (whole_ofInt (natAbs_toInt_le a)) (whole_ofInt (natAbs_toInt_le b)) hne
  have hlt : ((rounded a.toInt).tmod (rounded b.toInt)).natAbs < (rounded b.toInt).natAbs := by
    rw [Int.natAbs_tmod]
    exact Nat.mod_lt _ (Int.natAbs_pos.mpr hne)
  have hle := natAbs_rounded_le (natAbs_toInt_le b)
  have h63 : pow2 63 = 9223372036854775808 := rfl
  obtain ⟨r, hr, hok⟩ := ofResult_mem (truncate_whole hw) (by omega)
  refine ⟨r, hr, by rwa [hr], ?_⟩
  rwa [arithmetic_integer rfl, if_neg (fun hz => hb hz.2)]

theorem arithmetic_div_error_iff (hb : b ≠ 0) {cause : TypeError.Cause} :
    Value.arithmetic .div (.integer a) (.integer b) = .error cause ↔ cause = .overflow ∧
      (b = 1 ∧ 2 ^ 63 - 512 ≤ a.toInt ∨ b = -1 ∧ a.toInt ≤ -2 ^ 63 + 512) := by
  have hi := natAbs_toInt_le a
  obtain ⟨t, ht, hnone⟩ := truncate_div_ofInt hi (natAbs_toInt_le b) (toInt_ne_zero hb)
  have hone : rounded b.toInt = 1 ↔ b = 1 := by
    rw [rounded_eq_one_iff, ← Int64.toInt_inj]
    rfl
  have hneg : rounded b.toInt = -1 ↔ b = -1 := by
    rw [← neg_eq_iff_eq_neg, ← rounded_neg, rounded_eq_one_iff, neg_eq_iff_eq_neg,
      ← Int64.toInt_inj]
    rfl
  have hbottom : rounded a.toInt = -pow2 63 ↔ a.toInt ≤ -2 ^ 63 + 512 := by
    rw [← neg_eq_iff_eq_neg, ← rounded_neg, rounded_eq_top_iff (by rwa [Int.natAbs_neg])]
    omega
  rw [hone, hneg, rounded_eq_top_iff hi, hbottom] at hnone
  rw [← hnone, arithmetic_integer rfl, if_neg (fun hz => hb hz.2), ofResult_truncate ht]
  cases narrow? t with
  | none => simp [eq_comm]
  | some w => simp

/-- Integers fail to divide in these cases only. A remainder is that of the nearest doubles. -/
theorem integer_division_fails_iff (a b : Int64) :
    (∀ op, op = .div ∨ op = .mod →
      (Value.arithmetic op (.integer a) (.integer b) = .error .divisionByZero ↔ b = 0)) ∧
      (b ≠ 0 → ∃ (A B : Int) (r : Int64),
        NearestTo a.toInt (ofInt a.toInt) A ∧ NearestTo b.toInt (ofInt b.toInt) B ∧
        Value.arithmetic .mod (.integer a) (.integer b) = .ok (.integer r) ∧
        r.toInt = A - B * A.tdiv B ∧ (r.toInt = 0 ∨ r.toInt.sign = A.sign) ∧
        r.toInt.natAbs < B.natAbs) ∧
      (b ≠ 0 →
        ((∃ cause, Value.arithmetic .div (.integer a) (.integer b) = .error cause) ↔
          b = 1 ∧ 2 ^ 63 - 512 ≤ a.toInt ∨ b = -1 ∧ a.toInt ≤ -2 ^ 63 + 512) ∧
        ∀ cause, Value.arithmetic .div (.integer a) (.integer b) = .error cause →
          cause = .overflow) := by
  refine ⟨fun op hop => arithmetic_divisionByZero_iff hop, ?_, ?_⟩
  · intro hb
    obtain ⟨r, hr, hlt, hmod⟩ := arithmetic_mod (a := a) hb
    refine ⟨rounded a.toInt, rounded b.toInt, r, nearestTo_ofInt (natAbs_toInt_le a),
      nearestTo_ofInt (natAbs_toInt_le b), hmod, ?_, ?_, hlt⟩
    · rw [hr, Int.tmod_def]
    · rw [hr, Int.sign_tmod, ← Int.sign_eq_zero_iff_zero, Int.sign_tmod]
      split_ifs
      · exact Or.inl rfl
      · exact Or.inr rfl
  · intro hb
    refine ⟨⟨?_, ?_⟩, ?_⟩
    · rintro ⟨cause, h⟩
      exact ((arithmetic_div_error_iff hb).mp h).2
    · intro h
      exact ⟨.overflow, (arithmetic_div_error_iff hb).mpr ⟨rfl, h⟩⟩
    · intro cause h
      exact ((arithmetic_div_error_iff hb).mp h).1

example :
    Value.arithmetic .div (.integer 9223372036854775296) (.integer 1) = .error .overflow ∧
      Value.arithmetic .div (.integer 9223372036854775295) (.integer 1) =
        .ok (.integer 9223372036854774784) := by
  decide +kernel

end Scriptlet
