import Scriptlet.Binary64.Basic
import Scriptlet.Decimal

/-!
The decimal text of a double: the fewest digits that read back as the same double, nearest to it
among those, upwards on a tie. It is always written positionally.
-/

namespace Scriptlet.Binary64

/-- The decimals that read as a given magnitude, between two ends given in quarters of a quantum. -/
structure Interval where
  low : Nat
  high : Nat
  closed : Bool

/-- The gap below a power of two is half as wide as the one above. Both ends round to the
magnitude if its last binary digit is even. -/
def Magnitude.interval (m : Magnitude) : Interval :=
  let step := pow2 (excess m.quanta)
  let narrow := m.quanta = pow2 52 * step ∧ step ≠ 1
  { low := 4 * m.quanta - (if narrow then step else 2 * step)
    high := 4 * m.quanta + 2 * step
    closed := m.quanta / step % 2 = 0 }

/-- The number of steps of 10^-1074 in one quantum. -/
def scale : Nat := Nat.pow 5 unitLog

/-- Whether `count` steps of 10^-1074 read as the magnitude. -/
def Interval.contains (i : Interval) (count : Nat) : Bool :=
  if i.closed then i.low * scale ≤ 4 * count && 4 * count ≤ i.high * scale
  else i.low * scale < 4 * count && 4 * count < i.high * scale

/-- The decimal on the grid of 10^(n - 1074) that reads as the magnitude, if there is one. -/
def Magnitude.onGrid? (m : Magnitude) (n : Nat) : Option Decimal :=
  let value := m.quanta * scale
  let grid := pow10 n
  let below := value / grid
  let rest := value % grid
  let lower := m.interval.contains (below * grid)
  let upper := m.interval.contains ((below + 1) * grid)
  if upper && (!lower || grid ≤ 2 * rest) then some ⟨below + 1, n - unitLog⟩
  else if lower then some ⟨below, n - unitLog⟩
  else none

/-- The first hit on the grids up to `n`, coarse ones first. The finest grid holds every
magnitude. -/
def Magnitude.shortestFrom (m : Magnitude) : Nat → Decimal
  | 0 => ⟨m.quanta * scale, -unitLog⟩
  | n + 1 => (m.onGrid? (n + 1)).getD (m.shortestFrom n)

/-- The search starts at a grid that is wider than the magnitude, since 10^n exceeds 2^(3n). -/
def Magnitude.shortest (m : Magnitude) : Decimal :=
  m.shortestFrom ((m.quanta * scale).log2 / 3 + 1)

def Magnitude.render (m : Magnitude) : String :=
  if m.quanta = 0 then "0" else m.shortest.positional

def minus (negative : Bool) : String :=
  if negative then "-" else ""

def render : Binary64 → String
  | .finite negative m => minus negative ++ m.render
  | .infinite negative => minus negative ++ "inf"
  | .nan => "NaN"

end Scriptlet.Binary64
