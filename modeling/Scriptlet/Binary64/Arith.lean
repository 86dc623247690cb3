import Scriptlet.Binary64.Basic

/-!
Arithmetic of doubles: the exact result in quanta, rounded once. The remainder is exact and needs
no rounding.
-/

namespace Scriptlet.Binary64

def neg : Binary64 → Binary64
  | .finite negative m => .finite (!negative) m
  | .infinite negative => .infinite (!negative)
  | .nan => .nan

/-- A sum of zero is negative only if both terms are. -/
def addFinite (a b : Bool) (x y : Magnitude) : Binary64 :=
  let sum := signed a x.quanta + signed b y.quanta
  if sum = 0 then zero (a && b) else round (decide (sum < 0)) sum.natAbs 1

def add : Binary64 → Binary64 → Binary64
  | .finite a x, .finite b y => addFinite a b x y
  | .infinite a, .infinite b => if a = b then .infinite a else .nan
  | .infinite a, .finite .. => .infinite a
  | .finite .., .infinite b => .infinite b
  | .nan, _ => .nan
  | _, .nan => .nan

def sub (x y : Binary64) : Binary64 :=
  add x (neg y)

def mul : Binary64 → Binary64 → Binary64
  | .finite a x, .finite b y => round (a != b) (x.quanta * y.quanta) unit
  | .infinite a, .infinite b => .infinite (a != b)
  | .infinite a, .finite b y => if y.quanta = 0 then .nan else .infinite (a != b)
  | .finite a x, .infinite b => if x.quanta = 0 then .nan else .infinite (a != b)
  | .nan, _ => .nan
  | _, .nan => .nan

def div : Binary64 → Binary64 → Binary64
  | .finite a x, .finite b y =>
    if y.quanta ≠ 0 then round (a != b) (x.quanta * unit) y.quanta
    else if x.quanta = 0 then .nan
    else .infinite (a != b)
  | .infinite _, .infinite _ => .nan
  | .infinite a, .finite b _ => .infinite (a != b)
  | .finite a _, .infinite b => zero (a != b)
  | .nan, _ => .nan
  | _, .nan => .nan

theorem short_mod {x y : Nat} (hx : Short x) (hy : Short y) : Short (x % y) := by
  obtain ⟨m, s, rfl, hm⟩ := hx
  obtain ⟨n, t, rfl, hn⟩ := hy
  obtain h | h := Nat.le_total t s
  · obtain ⟨k, rfl⟩ := Nat.exists_eq_add_of_le' h
    rw [pow2_add, ← Nat.mul_assoc, Nat.mul_mod_mul_right]
    refine short_mul_pow2 t ?_
    obtain rfl | hn0 := Nat.eq_zero_or_pos n
    · rw [Nat.mod_zero]
      exact short_mul_pow2 k (short_of_lt hm)
    · exact short_of_lt (Nat.lt_trans (Nat.mod_lt _ hn0) hn)
  · obtain ⟨k, rfl⟩ := Nat.exists_eq_add_of_le' h
    rw [pow2_add, ← Nat.mul_assoc, Nat.mul_mod_mul_right]
    exact short_mul_pow2 s (short_of_lt (Nat.lt_of_le_of_lt (Nat.mod_le _ _) hm))

/-- What is left of one magnitude when another is taken away as often as possible. -/
def Magnitude.mod (x y : Magnitude) : Magnitude :=
  ⟨x.quanta % y.quanta, Nat.lt_of_le_of_lt (Nat.mod_le _ _) x.small, short_mod x.short y.short⟩

/-- The remainder of the quotient cut towards zero; it has the sign of the dividend. -/
def rem : Binary64 → Binary64 → Binary64
  | .finite a x, .finite _ y => if y.quanta = 0 then .nan else .finite a (x.mod y)
  | .finite a x, .infinite _ => .finite a x
  | .infinite _, _ => .nan
  | .nan, _ => .nan
  | _, .nan => .nan

end Scriptlet.Binary64
