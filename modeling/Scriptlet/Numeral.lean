import Scriptlet.Binary64.Basic
import Scriptlet.Decimal

/-!
Reading numbers from text. A whole number is an optional sign and digits. A double is an optional
sign and either a decimal with an optional exponent or the word for an infinity or NaN.
-/

namespace Scriptlet

namespace Numeral

def splitSign : List Char → Bool × List Char
  | '-' :: cs => (true, cs)
  | '+' :: cs => (false, cs)
  | cs => (false, cs)

def value (digits : List Char) : Nat :=
  Nat.ofDigitChars 10 digits 0

/-- At least one character, and digits only. -/
def isNatural (cs : List Char) : Bool :=
  !cs.isEmpty && cs.all Char.isDigit

def int64? (text : String) : Option Int64 :=
  let (negative, digits) := splitSign text.toList
  if isNatural digits then narrow? (if negative then -value digits else value digits) else none

/-- The value of the digits of an exponent, which stop counting beyond 2^16: such an exponent
leaves the range of doubles on either side. -/
def exponentValue (digits : List Char) : Nat :=
  digits.foldl (fun e d => if e < 65536 then 10 * e + (d.toNat - '0'.toNat) else e) 0

/-- The exponent that ends a decimal; none is written for zero. -/
def exponent? : List Char → Option Int
  | [] => some 0
  | c :: cs =>
    let (negative, digits) := splitSign cs
    if c.toLower = 'e' ∧ isNatural digits then
      some (if negative then -exponentValue digits else exponentValue digits)
    else none

/-- The digits after the point, if there is a point, and what follows them. -/
def splitFraction : List Char → List Char × List Char
  | '.' :: cs => (cs.takeWhile Char.isDigit, cs.dropWhile Char.isDigit)
  | cs => ([], cs)

def decimal? (cs : List Char) : Option Decimal :=
  let whole := cs.takeWhile Char.isDigit
  let (fraction, rest) := splitFraction (cs.dropWhile Char.isDigit)
  let digits := whole ++ fraction
  if digits.isEmpty then none
  else (exponent? rest).map fun e => ⟨value digits, e - fraction.length⟩

end Numeral

namespace Binary64

def ofDecimal (negative : Bool) (d : Decimal) : Binary64 :=
  match d.exponent with
  | .ofNat n => round negative (d.digits * pow10 n * unit) 1
  | .negSucc n => round negative (d.digits * unit) (pow10 (n + 1))

/-- The double of an infinity's or NaN's name, in any case. -/
def ofName? (negative : Bool) (name : String) : Option Binary64 :=
  if name = "inf" ∨ name = "infinity" then some (.infinite negative)
  else if name = "nan" then some .nan
  else none

def ofText? (text : String) : Option Binary64 :=
  let (negative, cs) := Numeral.splitSign text.toList
  match Numeral.decimal? cs with
  | some d => some (ofDecimal negative d)
  | none => ofName? negative (String.ofList (cs.map Char.toLower))

end Binary64

end Scriptlet
