import Manifest.Number

/-!
# The shortest text of a number

The digits written for a finite number are the fewest that read back to it, and of those the ones
nearest to it.  A decimal `c · 10 ^ t` reads back to a number when it lies in the interval of reals
that round to it (`readsBack`); the ends of the interval belong to it exactly when the mantissa is
even.  On the grid of the multiples of `10 ^ t` only the two neighbours of the number can do so, and
the first grid, from coarse to fine, with such a neighbour gives the digits (`shortestDigits`).

`text` lays the digits out: positionally as long as the decimal point stands within twenty-one
digits or at most six zeros follow it, and with a signed exponent otherwise.
-/

namespace Manifest.Number

/-- The order of `c · 10 ^ t` and `a · 2 ^ p`, by cross-multiplication. -/
def compareDecimal (c : Nat) (t : Int) (a : Nat) (p : Int) : Ordering :=
  compare (c * tenTo t * twoTo (-p)) (a * twoTo p * tenTo (-t))

/-- Whether `c · 10 ^ t` rounds to the magnitude of the number. -/
def readsBack (x : Number) (c : Nat) (t : Int) : Bool :=
  let narrow := x.fractionBits = 0 && 1 < x.exponentBits
  let low := if narrow then 4 * x.mantissa - 1 else 4 * x.mantissa - 2
  let high := 4 * x.mantissa + 2
  let ends := x.mantissa % 2 = 0
  let above := compareDecimal c t low (x.scale - 2)
  let below := compareDecimal c t high (x.scale - 2)
  (above = .gt || (ends && above = .eq)) && (below = .lt || (ends && below = .eq))

/-- The least `k` with the magnitude of the number below `10 ^ k`, for a number that is not zero:
the binary logarithm leaves four candidates. -/
def decimalOrder (x : Number) : Int :=
  let guess := ((x.mantissa.log2 : Int) + x.scale) * 30103 / 100000
  let fits := fun k : Int => compareDecimal 1 k x.mantissa x.scale = .gt
  if fits (guess - 1) then guess - 1
  else if fits guess then guess
  else if fits (guess + 1) then guess + 1
  else guess + 2

/-- The multiple of `10 ^ t` next to the number that reads back to it, if there is one; of two the
nearer, and of two equally near the even one. -/
def onGrid? (x : Number) (t : Int) : Option Nat :=
  let num := x.numerator * tenTo (-t)
  let den := x.denominator * tenTo t
  let c := num / den
  match x.readsBack c t, x.readsBack (c + 1) t with
  | true, false => some c
  | false, true => some (c + 1)
  | false, false => none
  | true, true =>
    match compare (2 * num) ((2 * c + 1) * den) with
    | .lt => some c
    | .gt => some (c + 1)
    | .eq => if c % 2 = 0 then some c else some (c + 1)

/-- Tries the grids of `digits`, `digits + 1`, … significant digits, at most `more` of them. -/
def searchGrids (x : Number) (order : Int) : Nat → Nat → Option (Nat × Int)
  | _, 0 => none
  | digits, more + 1 =>
    match x.onGrid? (order - digits) with
    | some c => some (c, order - digits)
    | none => searchGrids x order (digits + 1) more

/-- Digits `c` and a power `t` with `c · 10 ^ t` the shortest decimal that reads back.  Seventeen
digits always do; were there none, the exact value would be taken. -/
def shortestDigits (x : Number) : Nat × Int :=
  (x.searchGrids x.decimalOrder 1 17).getD
    (x.numerator * Nat.pow 5 (-x.scale).toNat, -(-x.scale).toNat)

/-- The text of a signed exponent. -/
def exponentText (e : Int) : String :=
  "e" ++ (if e < 0 then "-" else "+") ++ toString e.natAbs

/-- Lays out the digits of `0.digits · 10 ^ point`: without an exponent for a `point` from -5 to
21. -/
def layOut (digits : List Char) (point : Int) : String :=
  let zeros := fun n : Int => List.replicate n.toNat '0'
  if 0 < point && point ≤ 21 then
    if digits.length ≤ point then String.ofList (digits ++ zeros (point - digits.length))
    else String.ofList (digits.take point.toNat ++ '.' :: digits.drop point.toNat)
  else if -6 < point && point ≤ 0 then String.ofList ('0' :: '.' :: (zeros (-point) ++ digits))
  else
    match digits with
    | [d] => String.ofList [d] ++ exponentText (point - 1)
    | d :: rest => String.ofList (d :: '.' :: rest) ++ exponentText (point - 1)
    | [] => ""

/-- The digits without the zeros at their end. -/
def stripZeros (digits : List Char) : List Char := (digits.reverse.dropWhile (· = '0')).reverse

/-- The shortest text of a number; the sign of a zero is not written. -/
def text (x : Number) : String :=
  if x.isNaN then "NaN"
  else if x.isInfinite then if x.negative then "-Infinity" else "Infinity"
  else if x.isZero then "0"
  else
    let (c, t) := x.shortestDigits
    let digits := Nat.toDigits 10 c
    (if x.negative then "-" else "") ++ layOut (stripZeros digits) (digits.length + t)

end Manifest.Number
