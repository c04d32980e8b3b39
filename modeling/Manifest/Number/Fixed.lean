import Manifest.Number.Shortest

/-!
# Numbers with six decimals

The exact value of a number rounded to six decimals, a tie going away from zero.  The sign of a
number below zero stays even if all its digits are zero; a zero has none.  Magnitudes from `10 ^ 21`
on are written in their shortest form.
-/

namespace Manifest.Number

/-- The quotient rounded to the nearest natural, a half upwards. -/
def roundHalfUp (num den : Nat) : Nat := (2 * num + den) / (2 * den)

/-- The magnitude of a finite number in millionths, rounded. -/
def millionths (x : Number) : Nat :=
  roundHalfUp (1000000 * x.numerator) x.denominator

/-- Writes a count of millionths with six decimals. -/
def millionthsText (n : Nat) : String :=
  let decimals := Nat.toDigits 10 (n % 1000000)
  toString (n / 1000000) ++ "." ++
    String.ofList (List.replicate (6 - decimals.length) '0' ++ decimals)

/-- Whether the magnitude of a finite number is at least `10 ^ 21`. -/
def isHuge (x : Number) : Bool := compareDecimal 1 21 x.mantissa x.scale ≠ .gt

/-- The number with six decimals. -/
def fixedText (x : Number) : String :=
  if x.isNaN || x.isInfinite then x.text
  else if x.isZero then millionthsText 0
  else if x.isHuge then x.text
  else (if x.negative then "-" else "") ++ millionthsText x.millionths

end Manifest.Number
