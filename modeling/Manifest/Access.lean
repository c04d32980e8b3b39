import Manifest.Visit

/-!
# Looking values up

Reading operations on a document.  `get` follows a path to its first target; `findAll` and
`findFirst` give the paths of the targets with `-` replaced by positions, all of them or those that
hold a given content.  To hold nothing in particular is asked for with `absent`.
-/

namespace Manifest.Value

/-- The value at a path. -/
def get (root : Value) (path : Path) : Except Fault Value := (Visitor.run {} 0 root path).result

/-- Whether a path leads to something. -/
def resolves (root : Value) (path : Path) : Except Fault Bool :=
  match root.get path with
  | .ok _ => .ok true
  | .error fault => if fault.isNotFound then .ok false else .error fault

/-- Whether a value is there and has the content asked for; anything does for `absent`. -/
def holds (wanted value : Value) : Bool :=
  match wanted.present? with
  | none => true
  | some w =>
    match value.present? with
    | none => false
    | some v => v.same w

/-- A visitor that accepts targets with the content asked for. -/
def seeker (wanted : Value) (every : Bool) : Visitor where
  every := every
  accept := fun _ value _ => .ok (wanted.holds value)

/-- The paths of the accepted targets, in the order in which they were seen. -/
def acceptedPaths (wanted : Value) (history : History) : List Path :=
  history.reverse.filterMap fun
    | .sighted value trail _ => if wanted.holds value then some trail.path else none
    | _ => none

/-- The paths seen in a visit that found nothing wrong with the document. -/
def seekPaths (root : Value) (path : Path) (wanted : Value) (every : Bool) :
    Except Fault (List Path) :=
  let o := (seeker wanted every).run 0 root path
  match o.result with
  | .ok _ => .ok (acceptedPaths wanted o.history)
  | .error fault =>
    if fault.isNotFound then .ok (acceptedPaths wanted o.history) else .error fault

/-- The paths of all targets with the content asked for. -/
def findAll (root : Value) (path : Path) (wanted : Value) : Except Fault (List Path) :=
  root.seekPaths path wanted true

/-- The path of the first target with the content asked for. -/
def findFirst (root : Value) (path : Path) (wanted : Value) : Except Fault (Option Path) :=
  (root.seekPaths path wanted false).map List.head?

/-! ## Look-up of one type -/

/-- The text at a path. -/
def getString (root : Value) (path : Path) : Except Fault String :=
  match root.get path with
  | .ok (string s) => .ok s
  | .ok v => .error (.incorrectType v.typeName)
  | .error fault => .error fault

/-- The record at a path. -/
def getRecord (root : Value) (path : Path) : Except Fault Value :=
  match root.get path with
  | .ok (record kind members) => .ok (record kind members)
  | .ok v => .error (.incorrectType v.typeName)
  | .error fault => .error fault

/-- The elements of the array at a path. -/
def getArray (root : Value) (path : Path) : Except Fault (List Value) :=
  match root.get path with
  | .ok (array items) => .ok items
  | .ok v => .error (.incorrectType v.typeName)
  | .error fault => .error fault

end Manifest.Value
