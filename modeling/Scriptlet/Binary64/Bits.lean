import Scriptlet.Binary64.Basic

/-!
The 64-bit interchange form of a double: one bit of sign, eleven of exponent, 52 of fraction.
-/

namespace Scriptlet.Binary64

theorem significand_lt {fraction : Nat} (h : fraction < pow2 52) :
    pow2 52 + fraction < pow2 53 := by
  rw [pow2_succ 52]
  omega

theorem normal_small {shift fraction : Nat} (hs : shift < 2046) (hf : fraction < pow2 52) :
    (pow2 52 + fraction) * pow2 shift < ceiling := by
  have h : (pow2 52 + fraction) * pow2 shift < pow2 53 * pow2 shift :=
    Nat.mul_lt_mul_of_pos_right (significand_lt hf) (pow2_pos _)
  rw [← pow2_add] at h
  exact Nat.lt_of_lt_of_le h (pow2_le_ceiling (by simp only [ceilingLog]; omega))

theorem subnormal_lt {fraction : Nat} (h : fraction < pow2 52) : fraction < pow2 53 :=
  Nat.lt_of_lt_of_le h (pow2_le_pow2 (by decide))

theorem subnormal_small {fraction : Nat} (h : fraction < pow2 52) : fraction < ceiling :=
  Nat.lt_of_lt_of_le h (pow2_le_ceiling (by decide))

def ofBits (bits : UInt64) : Binary64 :=
  let negative := decide (pow2 63 ≤ bits.toNat)
  let field := bits.toNat / pow2 52 % 2048
  let fraction := bits.toNat % pow2 52
  have hf : fraction < pow2 52 := Nat.mod_lt _ (pow2_pos 52)
  if field = 0 then
    .finite negative ⟨fraction, subnormal_small hf, short_of_lt (subnormal_lt hf)⟩
  else if h : field - 1 < 2046 then
    .finite negative ⟨(pow2 52 + fraction) * pow2 (field - 1), normal_small h hf,
      short_mul_pow2 _ (short_of_lt (significand_lt hf))⟩
  else if fraction = 0 then .infinite negative
  else .nan

/-- Exponent and fraction of a magnitude. The leading digit of a significand carries into the
exponent. -/
def Magnitude.toBits (m : Magnitude) : Nat :=
  let shift := excess m.quanta
  shift * pow2 52 + m.quanta / pow2 shift

def signBit (negative : Bool) : Nat :=
  if negative then pow2 63 else 0

/-- NaN is written with the quiet bit alone. -/
def toBits : Binary64 → UInt64
  | .finite negative m => (signBit negative + m.toBits).toUInt64
  | .infinite negative => (signBit negative + 2047 * pow2 52).toUInt64
  | .nan => (2047 * pow2 52 + pow2 51).toUInt64

end Scriptlet.Binary64
