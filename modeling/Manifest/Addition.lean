import Manifest.Visit

/-!
# Additions

To make a path lead to a value it is enough to add one value at one place.  `Value.additionFor`
finds that place: the target itself if the path resolves, and otherwise the place where the path
stops, in which case the value is wrapped into the records and arrays that the rest of the path asks
for.  A final `-` is kept, so that an array is appended to.
-/

namespace Manifest

/-- A value and the place at which it is to be added. -/
structure Addition where
  path : Path
  value : Value

/-- Wraps a value into the structure that segments describe: a record for each key and an array of
one element for each `-`.  An index describes no structure. -/
def wrap : Path → Value → Except Fault Value
  | [], value => .ok value
  | segment :: rest, value =>
    match wrap rest value with
    | .error fault => .error fault
    | .ok inner =>
      match Role.ofSegment segment with
      | .key => .ok (.object [(segment, inner)])
      | .any => .ok (.array [inner])
      | .index _ => .error .indexNotation

/-- How far a visit came: the path of its last event. -/
def History.reached : History → Path
  | .sighted _ trail _ :: _ => trail.path
  | .missed path :: _ => path
  | _ => []

/-- Whether a path ends in `-`. -/
def Path.endsInTraversal (path : Path) : Bool := path.getLast? = some traversal

/-- Whether the last segment of a path is an index. -/
def Path.endsInIndex (path : Path) : Bool :=
  match path.getLast?.map Role.ofSegment with
  | some (.index _) => true
  | _ => false

/-- The addition that makes `path` lead to `value`. -/
def Value.additionFor (root : Value) (path : Path) (value : Value) : Except Fault Addition :=
  if path.isEmpty then .ok ⟨path, value⟩
  else
    let o := Visitor.run {} 0 root path
    let reached := o.history.reached
    match o.result with
    | .ok _ => .ok ⟨if path.endsInTraversal then reached.withTraversalLast else reached, value⟩
    | .error fault =>
      if !fault.isNotFound then .error fault
      else if reached.length = path.length then .ok ⟨reached, value⟩
      else if reached.endsInIndex then .error .indexNotation
      else
        match wrap (path.drop reached.length) value with
        | .error fault => .error fault
        | .ok extended => .ok ⟨reached, extended⟩

end Manifest
