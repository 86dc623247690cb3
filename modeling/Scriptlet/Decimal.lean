/-!
Decimal numbers as written: digits and the power of ten that they count.
-/

namespace Scriptlet

/-- The number `digits * 10 ^ exponent`. -/
structure Decimal where
  digits : Nat
  exponent : Int
deriving DecidableEq

/-- Digits with a point where the exponent wants one, and no point in a whole number. -/
def Decimal.positional (d : Decimal) : String :=
  let digits := Nat.toDigits 10 d.digits
  match d.exponent with
  | .ofNat n => String.ofList (digits ++ List.replicate n '0')
  | .negSucc n =>
    let places := n + 1
    let padded := List.replicate (places + 1 - digits.length) '0' ++ digits
    let whole := padded.length - places
    String.ofList (padded.take whole ++ '.' :: padded.drop whole)

end Scriptlet
