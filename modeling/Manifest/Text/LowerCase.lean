import Manifest.Text.CaseRanges

/-!
# Lower case

The lower-case form of a text, character by character but for two rules: a capital I with a dot
becomes two characters, and a capital sigma becomes a final one behind a letter with a case when no
such letter follows.  Between the sigma and those letters ignorable characters do not count.
-/

namespace Manifest.Text

/-- Whether a code point lies in one of the ranges. -/
def inRanges (ranges : List (Nat × Nat)) (c : Char) : Bool :=
  ranges.any fun r => r.1 ≤ c.toNat && c.toNat ≤ r.2

def isCased (c : Char) : Bool := inRanges casedRanges c

def isIgnorable (c : Char) : Bool := inRanges ignorableRanges c

/-- The lower-case form of a character by itself. -/
def lowerChar (c : Char) : Char :=
  let n := c.toNat
  match lowerRanges.find? fun (first, last, step, _) =>
      first ≤ n && n ≤ last && (n - first) % step = 0 with
  | some (first, _, _, target) => Char.ofNat (target + (n - first))
  | none => c

/-- Whether the first character that is not ignorable has a case. -/
def startsCased (cs : List Char) : Bool :=
  match cs.dropWhile isIgnorable with
  | [] => false
  | c :: _ => isCased c

/-- The lower-case form of the characters behind `before`, which is kept latest first. -/
def lowerAfter : List Char → List Char → List Char
  | _, [] => []
  | before, c :: rest =>
    let lowered :=
      if c = '\u0130' then ['i', '\u0307']
      else if c = '\u03a3' && startsCased before && !startsCased rest then ['\u03c2']
      else [lowerChar c]
    lowered ++ lowerAfter (c :: before) rest

/-- The lower-case form of a text. -/
def lower (s : String) : String := String.ofList (lowerAfter [] s.toList)

/-- Equality of texts but for case. -/
def equalFold (s t : String) : Bool := lower s = lower t

end Manifest.Text
