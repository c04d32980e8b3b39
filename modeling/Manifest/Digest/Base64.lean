/-!
# Base 64

Bytes written with sixty-four letters, three bytes as four letters; a last group of one or two bytes
is filled up with equals signs.
-/

namespace Manifest.Digest

/-- The sixty-four letters in the order of their values. -/
def letters : List Char :=
  "ABCDEFGHIJKLMNOPQRSTUVWXYZabcdefghijklmnopqrstuvwxyz0123456789+/".toList

/-- The letter with a value below sixty-four. -/
def letter (n : Nat) : Char := letters.getD (n % 64) 'A'

/-- Writes bytes in base 64. -/
def base64 : List UInt8 → List Char
  | [] => []
  | [a] => [letter (a.toNat / 4), letter (a.toNat * 16), '=', '=']
  | [a, b] =>
    [letter (a.toNat / 4), letter (a.toNat * 16 + b.toNat / 16), letter (b.toNat * 4), '=']
  | a :: b :: c :: rest =>
    letter (a.toNat / 4) :: letter (a.toNat * 16 + b.toNat / 16) ::
      letter (b.toNat * 4 + c.toNat / 64) :: letter c.toNat :: base64 rest

end Manifest.Digest
