/-!
# Numbers

A number of a document is a binary floating-point value of 64 bits, kept as its bits.  A finite one
is `± mantissa · 2 ^ scale`; everything that is printed or compared is computed from these two
naturals, exactly.

Two numbers are the *same* (`same`) when they have one value: the two zeros are the same, and so are
all bit patterns of "not a number".
-/

namespace Manifest

/-- A binary floating-point number of 64 bits. -/
structure Number where
  bits : UInt64
deriving DecidableEq

namespace Number

/-- The sign bit. -/
def negative (x : Number) : Bool := 0x8000000000000000 ≤ x.bits.toNat

/-- The eleven bits of the exponent. -/
def exponentBits (x : Number) : Nat := x.bits.toNat / 0x10000000000000 % 2048

/-- The fifty-two bits of the fraction. -/
def fractionBits (x : Number) : Nat := x.bits.toNat % 0x10000000000000

/-- Not a number. -/
def isNaN (x : Number) : Bool := x.exponentBits = 2047 && x.fractionBits ≠ 0

/-- One of the two infinities. -/
def isInfinite (x : Number) : Bool := x.exponentBits = 2047 && x.fractionBits = 0

/-- One of the two zeros. -/
def isZero (x : Number) : Bool := x.exponentBits = 0 && x.fractionBits = 0

/-- The integer part of a finite number's `mantissa · 2 ^ scale`. -/
def mantissa (x : Number) : Nat :=
  if x.exponentBits = 0 then x.fractionBits else x.fractionBits + 0x10000000000000

/-- The power of two of a finite number's `mantissa · 2 ^ scale`. -/
def scale (x : Number) : Int := max (x.exponentBits : Int) 1 - 1075

/-- Equality of values: zeros are equal whatever their sign, and "not a number" equals itself. -/
def same (x y : Number) : Bool := x = y || (x.isZero && y.isZero) || (x.isNaN && y.isNaN)

@[simp] theorem same_refl (x : Number) : x.same x = true := by simp [same]

/-! ## Powers -/

/-- `2 ^ n` for an `n` that is not below zero, and 1 otherwise. -/
def twoTo (n : Int) : Nat := Nat.pow 2 n.toNat

/-- `10 ^ n` for an `n` that is not below zero, and 1 otherwise. -/
def tenTo (n : Int) : Nat := Nat.pow 10 n.toNat

/-- The magnitude of a finite number as a quotient: the numerator. -/
def numerator (x : Number) : Nat := x.mantissa * twoTo x.scale

/-- The magnitude of a finite number as a quotient: the denominator. -/
def denominator (x : Number) : Nat := twoTo (-x.scale)

/-! ## Particular numbers -/

def nan : Number := ⟨0x7ff8000000000000⟩

def infinity : Number := ⟨0x7ff0000000000000⟩

def zero : Number := ⟨0⟩

/-- The number with the sign turned round. -/
def neg (x : Number) : Number := ⟨x.bits ^^^ 0x8000000000000000⟩

/-- Magnitudes of `10 ^ 310` and more are infinite, those below `10 ^ -330` are zero; between them
the nearest number is taken. -/
def ofMagnitude (digits : Nat) (exponent : Int) : Number :=
  let order := ((Nat.toDigits 10 digits).length : Int) + exponent
  if digits = 0 || order < -330 then zero
  else if order > 310 then infinity
  else ⟨(Float.ofScientific digits (exponent < 0) exponent.natAbs).toBits⟩

/-- The number nearest to `± digits · 10 ^ exponent`. -/
def ofDecimal (minus : Bool) (digits : Nat) (exponent : Int) : Number :=
  if minus then (ofMagnitude digits exponent).neg else ofMagnitude digits exponent

end Number

end Manifest
