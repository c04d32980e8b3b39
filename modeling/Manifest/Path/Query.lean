import Manifest.Path

/-!
# Paths as queries

A query separates keys by dots and puts array positions into brackets: `name[1]` is the second
element of `name` and `name[]` any element.  Between single ticks dots and brackets belong to the
key.

The text is read in one pass.  The state between two characters (`Scan`) holds the finished
segments, the characters of the pending one and whether a tick is open.  A dot, a bracket or a
closing tick ends the pending segment; an opening tick drops it.
-/

namespace Manifest.Path

/-- The state of the reader between two characters. -/
structure Scan where
  segments : Path := []
  pending : List Char := []
  quoted : Bool := false

/-- The quotation mark of a query. -/
def tick : Char := '\x27'

namespace Scan

/-- Ends the pending segment.  An empty one counts only before a closing bracket, as `-`. -/
def flush (s : Scan) (bracket : Bool) : Scan :=
  { s with
    segments :=
      if s.pending ≠ [] then s.segments ++ [String.ofList s.pending]
      else if bracket then s.segments ++ [traversal]
      else s.segments
    pending := [] }

/-- Reads one character. -/
def step (s : Scan) (c : Char) : Scan :=
  if c = tick then
    if s.quoted then { s.flush false with quoted := false }
    else { s with pending := [], quoted := true }
  else if !s.quoted && (c = '.' || c = '[' || c = ']') then s.flush (c = ']')
  else { s with pending := s.pending ++ [c] }

end Scan

/-- Reads a query. -/
def ofQuery (query : String) : Path := ((query.toList.foldl Scan.step {}).flush false).segments

end Manifest.Path
