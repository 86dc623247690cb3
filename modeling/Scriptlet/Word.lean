/-!
Whole numbers that fit a signed 64-bit word.
-/

namespace Scriptlet

/-- The word of this value, for values from -2^63 up to 2^63. -/
def narrow? (n : Int) : Option Int64 :=
  if -9223372036854775808 ≤ n ∧ n < 9223372036854775808 then some (Int64.ofInt n) else none

theorem toInt_ofInt_of_mem {n : Int} (h : -9223372036854775808 ≤ n ∧ n < 9223372036854775808) :
    (Int64.ofInt n).toInt = n :=
  Int64.toInt_ofInt_of_le (by omega) (by omega)

theorem narrow?_eq_some_iff {n : Int} {w : Int64} : narrow? n = some w ↔ w.toInt = n := by
  unfold narrow?
  split
  · rename_i h
    rw [Option.some.injEq, ← Int64.toInt_inj, toInt_ofInt_of_mem h]
    exact eq_comm
  · rename_i h
    have hl := w.le_toInt
    have hu := w.toInt_lt
    simp only [reduceCtorEq, false_iff]
    omega

end Scriptlet
