/-!
Powers of two and of ten.
-/

namespace Scriptlet

def pow2 (n : Nat) : Nat := Nat.pow 2 n

def pow10 (n : Nat) : Nat := Nat.pow 10 n

theorem pow2_pos (n : Nat) : 0 < pow2 n := Nat.two_pow_pos n

theorem pow2_succ (n : Nat) : pow2 (n + 1) = pow2 n * 2 := rfl

theorem pow2_add (m n : Nat) : pow2 (m + n) = pow2 m * pow2 n := Nat.pow_add 2 m n

theorem pow2_le_pow2 {m n : Nat} (h : m ≤ n) : pow2 m ≤ pow2 n := Nat.pow_le_pow_right (by decide) h

theorem lt_pow2_log2 (n : Nat) : n < pow2 (n.log2 + 1) := Nat.lt_log2_self

theorem pow2_log2_le {n : Nat} (h : n ≠ 0) : pow2 n.log2 ≤ n := Nat.log2_self_le h

end Scriptlet
