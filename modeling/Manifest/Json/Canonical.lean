import Manifest.Number.Shortest
import Manifest.Text.Units
import Manifest.Value

/-!
# Canonical document texts

The text of a document without blanks, members in the order of the units of their keys, numbers with
the fewest digits that read back.  What a text cannot hold is written as `null`.
-/

namespace Manifest.Json

/-- The hexadecimal digit of a number below sixteen. -/
def hexDigit (n : Nat) : Char := Nat.digitChar n

/-- Writes a character of a quoted text: only quotes, backslashes and control characters are
escaped. -/
def quoteChar (c : Char) : List Char :=
  match c with
  | '"' => ['\\', '"']
  | '\\' => ['\\', '\\']
  | '\x08' => ['\\', 'b']
  | '\x0c' => ['\\', 'f']
  | '\n' => ['\\', 'n']
  | '\r' => ['\\', 'r']
  | '\t' => ['\\', 't']
  | c =>
    if c.toNat < 0x20 then ['\\', 'u', '0', '0', hexDigit (c.toNat / 16), hexDigit (c.toNat % 16)]
    else [c]

/-- Writes a quoted text. -/
def quote (s : String) : String := "\"" ++ String.ofList (s.toList.flatMap quoteChar) ++ "\""

/-- Writes a number; only finite ones have a text. -/
def numberText (n : Number) : String := if n.isNaN || n.isInfinite then "null" else n.text

/-- Puts the texts of members in order and joins them. -/
def joinMembers (members : List (String × String)) : String :=
  ",".intercalate ((Text.sortByUnits members).map fun m => quote m.1 ++ ":" ++ m.2)

mutual

/-- The text of a document. -/
def canonical : Value → String
  | .absent => "null"
  | .vacant => "null"
  | .null => "null"
  | .bool b => if b then "true" else "false"
  | .number n => numberText n
  | .string s => quote s
  | .array items => "[" ++ ",".intercalate (canonicalItems items) ++ "]"
  | .record _ members => "\x7b" ++ joinMembers (canonicalMembers members) ++ "\x7d"
  | .foreign _ => "null"

/-- The texts of the elements. -/
def canonicalItems : List Value → List String
  | [] => []
  | v :: rest => canonical v :: canonicalItems rest

/-- The texts of the members' values. -/
def canonicalMembers : List (String × Value) → List (String × String)
  | [] => []
  | (key, v) :: rest => (key, canonical v) :: canonicalMembers rest

end

end Manifest.Json
