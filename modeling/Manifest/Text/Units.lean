/-!
# Order by 16-bit units

Texts are ordered by their 16-bit code units.  This differs from the order by code points: a
character beyond the first 65536 is two units, of which the first is below `U+E000`.
-/

namespace Manifest.Text

/-- The one or two 16-bit units of a character. -/
def unitsOfChar (c : Char) : List Nat :=
  if c.toNat < 0x10000 then [c.toNat]
  else [0xD800 + (c.toNat - 0x10000) / 0x400, 0xDC00 + (c.toNat - 0x10000) % 0x400]

/-- The 16-bit units of a text. -/
def units (s : String) : List Nat := s.toList.flatMap unitsOfChar

/-- What the 16-bit units of a character read as one by one: half of a pair reads as the
replacement character. -/
def unitReadings (c : Char) : List Char :=
  if c.toNat < 0x10000 then [c] else ['\ufffd', '\ufffd']

/-- The order of lists that the first difference decides. -/
def listLe : List Nat → List Nat → Bool
  | [], _ => true
  | _ :: _, [] => false
  | a :: s, b :: t => a < b || (a = b && listLe s t)

/-- The order of texts by their units. -/
def unitsLe (s t : String) : Bool := listLe (units s) (units t)

/-- Entries sorted by the units of their keys. -/
def sortByUnits {α : Type} (entries : List (String × α)) : List (String × α) :=
  entries.mergeSort fun a b => unitsLe a.1 b.1

theorem sortByUnits_perm {α : Type} (entries : List (String × α)) :
    (sortByUnits entries).Perm entries :=
  List.mergeSort_perm ..

end Manifest.Text
