import Manifest.Path
import Manifest.Value.Prototype

/-!
# Trails

A visit goes down from the root of a document.  Each step leaves a `Frame`, which is the container
that was entered without the child it was left through; the frames from the innermost outwards are
the `Trail`.  The trail gives the path that was walked (`Trail.path`) and, put together with what
now stands at its end, the whole document (`Trail.document`).
-/

namespace Manifest

/-- A container without the child through which it was left. -/
inductive Frame where
  /-- A record, left through the member under `key`. -/
  | member (kind : RecordKind) (key : String) (members : Fields Value)
  /-- An array, left through the element called `segment`, which stands between the elements
  `behind` it, the nearest of them first, and those `ahead` of it. -/
  | element (segment : String) (behind ahead : List Value)

/-- The elements of an array with `left` between those `behind` it, nearest first, and those
`ahead`. -/
def rejoin (behind : List Value) (left : Option Value) (ahead : List Value) : List Value :=
  (left.toList ++ behind).reverse ++ ahead

@[simp] theorem rejoin_some (behind : List Value) (v : Value) (ahead : List Value) :
    rejoin behind (some v) ahead = behind.reverse ++ v :: ahead := by
  simp [rejoin]

@[simp] theorem rejoin_none (behind ahead : List Value) :
    rejoin behind none ahead = behind.reverse ++ ahead := rfl

namespace Frame

/-- The segment that names the child. -/
def segment : Frame → String
  | member _ key _ => key
  | element segment _ _ => segment

/-- The container after an assignment in the child's place, or without the child. -/
def fill : Frame → Option Value → Value
  | member kind key members, some v => .assign kind members key v
  | member kind key members, none => .record kind (Fields.erase members key)
  | element _ behind ahead, left => .array (rejoin behind left ahead)

end Frame

/-- The frames from the innermost outwards. -/
abbrev Trail := List Frame

namespace Trail

/-- The path from the root to the end of the trail. -/
def path (trail : Trail) : Path := (List.map Frame.segment trail).reverse

/-- The last segment, empty at the root. -/
def key : Trail → String
  | [] => ""
  | frame :: _ => frame.segment

/-- The whole document when `left` stands at the end of the trail. -/
def document : Trail → Option Value → Value
  | [], left => left.getD .absent
  | frame :: outer, left => document outer (some (frame.fill left))

@[simp] theorem path_nil : path [] = [] := rfl

@[simp] theorem path_cons (frame : Frame) (outer : Trail) :
    path (frame :: outer) = path outer ++ [frame.segment] := by
  simp [path]

end Trail

end Manifest
