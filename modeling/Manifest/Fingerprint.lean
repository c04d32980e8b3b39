import Manifest.Digest.Base64
import Manifest.Digest.Sha256
import Manifest.Entries
import Manifest.Fault
import Manifest.Number.Fixed
import Manifest.Text.Units

/-!
# Fingerprints

The fingerprint of a document is taken from a text of its keys and values, in which the members of
every record stand in the order of the units of their keys (`Value.content`).  So it does not depend
on the order in which a document was written.  Numbers stand in it with six decimals.  At the root,
the entries of any value do as members.

Only what a document text can hold has a fingerprint; the fault names the first value that has none
and the key it belongs to.
-/

namespace Manifest

namespace Value

/-- Joins the keys and contents of members as they stand; the first fault counts. -/
def joinContents : List (String × Except Fault String) → Except Fault String
  | [] => .ok ""
  | (key, content) :: rest => do
    let s ← content
    let more ← joinContents rest
    return key ++ s ++ more

mutual

/-- The text of a value that belongs to a key. -/
def content (key : String) : Value → Except Fault String
  | null => .ok "null"
  | bool b => .ok (if b then "true" else "false")
  | number n => .ok n.fixedText
  | string s => .ok s
  | array items => itemContents key items
  | record .plain members => joinContents (Text.sortByUnits (memberContents members))
  | v => .error (.unsupportedHashType key v.typeName)

/-- The texts of elements one after the other; they belong to the key of their array. -/
def itemContents (key : String) : List Value → Except Fault String
  | [] => .ok ""
  | v :: rest => do
    let s ← content key v
    let more ← itemContents key rest
    return s ++ more

/-- The texts of members under their keys. -/
def memberContents : List (String × Value) → List (String × Except Fault String)
  | [] => []
  | (key, v) :: rest => (key, content key v) :: memberContents rest

end

/-- The text that the fingerprint of a document is taken from. -/
def fingerprintText (v : Value) : Except Fault String :=
  joinContents (Text.sortByUnits (memberContents v.entries))

/-- The first eight bytes of the digest of a text. -/
def digestBytes (text : String) : List UInt8 :=
  (Digest.sha256 text.toUTF8.toList).take 8

/-- The number with the given bytes, most significant first. -/
def ofBytes (bytes : List UInt8) : Nat := bytes.foldl (fun n b => 256 * n + b.toNat) 0

/-- The fingerprint as a number of 64 bits. -/
def hash (v : Value) : Except Fault Nat :=
  v.fingerprintText.map fun text => ofBytes (digestBytes text)

/-- The fingerprint in base 64. -/
def hashString (v : Value) : Except Fault String :=
  v.fingerprintText.map fun text => String.ofList (Digest.base64 (digestBytes text))

end Value

end Manifest
