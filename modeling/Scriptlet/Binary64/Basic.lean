import Scriptlet.Binary64.Rounding
import Scriptlet.Word

/-!
Double-precision numbers. A finite one is a sign and a whole number of quanta, the quantum being
2^-1074, so that every operation can be stated as exact arithmetic on whole numbers followed by
one rounding. All NaNs are one.
-/

namespace Scriptlet

/-- One is this power of two in quanta. -/
def Binary64.unitLog : Nat := 1074

/-- The number of quanta in one. -/
def Binary64.unit : Nat := pow2 unitLog

/-- The first power of two beyond the finite doubles, 2^1024, is this power of two in quanta. -/
def Binary64.ceilingLog : Nat := 2098

/-- The number of quanta in 2^1024, which no finite double reaches. -/
def Binary64.ceiling : Nat := pow2 ceilingLog

/-- The absolute value of a finite double, in quanta. -/
structure Binary64.Magnitude where
  quanta : Nat
  small : quanta < Binary64.ceiling
  short : Binary64.Short quanta
deriving DecidableEq

inductive Binary64 where
  | finite (negative : Bool) (magnitude : Binary64.Magnitude)
  | infinite (negative : Bool)
  | nan
deriving DecidableEq

namespace Binary64

theorem unit_pos : 0 < unit := pow2_pos unitLog

theorem ceiling_pos : 0 < ceiling := pow2_pos ceilingLog

theorem pow2_le_ceiling {n : Nat} (h : n ≤ ceilingLog) : pow2 n ≤ ceiling :=
  pow2_le_pow2 h

def Magnitude.zero : Magnitude :=
  ⟨0, ceiling_pos, short_of_lt (by decide)⟩

/-- Zero of either sign. -/
def zero (negative : Bool) : Binary64 :=
  .finite negative .zero

/-- The double nearest to `num / den` quanta, infinite if that leaves the range. -/
def round (negative : Bool) (num den : Nat) : Binary64 :=
  if h : nearest num den < ceiling then .finite negative ⟨nearest num den, h, short_nearest num den⟩
  else .infinite negative

/-- A number of quanta with its sign. -/
def signed (negative : Bool) (quanta : Nat) : Int :=
  if negative then -quanta else quanta

/-- The nearest double to a whole number. -/
def ofInt (n : Int) : Binary64 :=
  round (decide (n < 0)) (n.natAbs * unit) 1

/-- The whole number towards zero, for a finite double. -/
def truncate? : Binary64 → Option Int
  | .finite negative m => some (signed negative (m.quanta / unit))
  | _ => none

/-- The whole part of a number of 53 binary digits has no more digits. -/
theorem short_div_unit {n : Nat} (h : Short n) : Short (n / unit) := by
  obtain ⟨c, s, rfl, hc⟩ := h
  obtain hs | hs := Nat.le_total unitLog s
  · obtain ⟨k, rfl⟩ := Nat.exists_eq_add_of_le' hs
    rw [pow2_add, ← Nat.mul_assoc, ← unit, Nat.mul_div_cancel _ unit_pos]
    exact short_mul_pow2 k (short_of_lt hc)
  · obtain ⟨k, hk⟩ := Nat.exists_eq_add_of_le' hs
    rw [unit, hk, pow2_add, Nat.mul_div_mul_right _ _ (pow2_pos s)]
    exact short_of_lt (Nat.lt_of_le_of_lt (Nat.div_le_self _ _) hc)

/-- What is left of a magnitude without its fraction. -/
def Magnitude.whole (m : Magnitude) : Magnitude :=
  ⟨m.quanta / unit * unit, Nat.lt_of_le_of_lt (Nat.div_mul_le_self _ _) m.small,
    short_mul_pow2 unitLog (short_div_unit m.short)⟩

/-- The double without its fraction. -/
def trunc : Binary64 → Binary64
  | .finite negative m => .finite negative m.whole
  | x => x

def isFinite : Binary64 → Bool
  | .finite .. => true
  | _ => false

def isZero : Binary64 → Bool
  | .finite _ m => m.quanta == 0
  | _ => false

/-- Where a double stands on the line of quanta; the infinities stand beyond all finite ones and
NaN nowhere. -/
def key? : Binary64 → Option Int
  | .finite negative m => some (signed negative m.quanta)
  | .infinite negative => some (signed negative ceiling)
  | .nan => none

/-- Both stand on the line, in this relation. -/
def compare (rel : Int → Int → Bool) (x y : Binary64) : Bool :=
  match x.key?, y.key? with
  | some a, some b => rel a b
  | _, _ => false

def eq (x y : Binary64) : Bool := compare (· == ·) x y

def lt (x y : Binary64) : Bool := compare (· < ·) x y

def le (x y : Binary64) : Bool := compare (· ≤ ·) x y

/-- Truncation to 64 bits, where the result fits. The greatest word is no double and is rounded up
to 2^63, which is itself out of range. -/
def toInt64? (x : Binary64) : Option Int64 :=
  let whole := x.trunc
  if !whole.isFinite || whole.lt (ofInt Int64.minValue.toInt) ||
      (ofInt Int64.maxValue.toInt).le whole then none
  else whole.truncate?.map Int64.ofInt

end Binary64

end Scriptlet
