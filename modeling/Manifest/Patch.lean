import Manifest.Access
import Manifest.Location
import Manifest.Path.Pointer
import Manifest.Update
import Manifest.Value.Detached
import Manifest.Value.Prototype

/-!
# Patches

A patch is a list of operations on a document, each of which names its places by pointers.  The
operations are applied in order until one fails (`applyAll`); what was written before the failure
stays.

Every operation but `add` works on places that exist.  To add means to insert an element into an
array, to append one through `-`, or to assign a member of a record, whatever its key looks like.  To
move is to remove and then to add, so a move that fails at its second half has removed.  What is
copied or moved arrives as a detached copy.
-/

namespace Manifest

/-- A patch operation. -/
inductive Operation where
  | add (path : String) (value : Value)
  | remove (path : String)
  | replace (path : String) (value : Value)
  | copy (source path : String)
  | move (source path : String)
  | test (path : String) (value : Value)

namespace Operation

/-- The name of an operation. -/
def name : Operation → String
  | add _ _ => "add"
  | remove _ => "remove"
  | replace _ _ => "replace"
  | copy _ _ => "copy"
  | move _ _ => "move"
  | test _ _ => "test"

/-- The pointer to the place an operation is about. -/
def path : Operation → String
  | add path _ => path
  | remove path => path
  | replace path _ => path
  | copy _ path => path
  | move _ path => path
  | test path _ => path

/-! ## Operations on paths -/

def addAt (path : Path) (value : Value) : Operation := add path.toPointer value

def removeAt (path : Path) : Operation := remove path.toPointer

def replaceAt (path : Path) (value : Value) : Operation := replace path.toPointer value

def copyFrom (source path : Path) : Operation := copy source.toPointer path.toPointer

def moveFrom (source path : Path) : Operation := move source.toPointer path.toPointer

def testAt (path : Path) (value : Value) : Operation := test path.toPointer value

end Operation

namespace Patch

/-- The value at an existing place. -/
def locate (target : Value) (operation : String) (path : Path) : Except Fault Value :=
  let nothing := Fault.patchOperation operation ("path " ++ path.toPointer ++ " does not exist")
  if path.any fun segment => Role.ofSegment segment = .any then
    .error (.patchOperation operation "\"-\" does not address an existing value")
  else
    match target.get path with
    | .ok v =>
      match v.present? with
      | none => .error nothing
      | some v => .ok v
    | .error fault => .error (if fault.isNotFound then nothing else fault)

/-- The container after a value was added under a segment; `path` is the whole path, for the
report. -/
def addTo (container : Value) (path : Path) (segment : String) (value : Value) :
    Except Fault Value :=
  match container with
  | .array items =>
    match Role.ofSegment segment with
    | .any => .ok (.array (items ++ [value]))
    | .index n =>
      if items.length < n then
        .error (.patchOperation "add" ("index " ++ segment ++ " out of bounds"))
      else .ok (.array (items.insertIdx n value))
    | .key => .error (.patchOperation "add" ("\"" ++ segment ++ "\" is not an array index"))
  | .record kind members => .ok (.assign kind members segment value)
  | _ => .error (.patchOperation "add" (path.toPointer ++ " has no object or array parent"))

/-- Adds a value at a path that is not the root. -/
def addValue (target : Value) (path : Path) (value : Value) : Except Fault Value :=
  match locate target "add" path.dropLast with
  | .error fault => .error fault
  | .ok container =>
    (addTo container path (path.getLast?.getD "") value).map fun new =>
      target.putAt path.dropLast new

/-- Removes the value at a path and gives it. -/
def removeValue (target : Value) (operation : String) (path : Path) : Change Value :=
  match locate target operation path with
  | .error fault => (.error fault, target)
  | .ok value =>
    let o := Visitor.removing.run 0 target path
    (o.result.map fun _ => value, o.left)

/-- Replaces the value at a path. -/
def replaceValue (target : Value) (path : Path) (value : Value) : Change Unit :=
  match locate target "replace" path with
  | .error fault => (.error fault, target)
  | .ok _ =>
    let o := (Visitor.writing value).run 0 target path
    (o.result.map fun _ => (), o.left)

/-- A change that leaves the document as it is when it fails. -/
def orKeep (target : Value) : Except Fault Value → Change Unit
  | .error fault => (.error fault, target)
  | .ok new => (.ok (), new)

/-- Applies an operation whose own pointer reads as `path`. -/
def applyAt (target : Value) (path : Path) : Operation → Change Unit
  | .add _ value => orKeep target (addValue target path value)
  | .remove _ =>
    let (result, left) := removeValue target "remove" path
    (result.map fun _ => (), left)
  | .replace _ value => replaceValue target path value
  | .copy source _ =>
    match locate target "copy" (Path.ofPointer source) with
    | .error fault => (.error fault, target)
    | .ok value => orKeep target (addValue target path value.detached)
  | .move source _ =>
    match removeValue target "move" (Path.ofPointer source) with
    | (.error fault, left) => (.error fault, left)
    | (.ok value, left) => orKeep left (addValue left path value.detached)
  | .test pointer value =>
    match locate target "test" path with
    | .error fault => (.error fault, target)
    | .ok found =>
      if found.same value then (.ok (), target)
      else (.error (.patchOperation "test" ("value at " ++ pointer ++ " does not match")), target)

end Patch

namespace Operation

/-- Whether an operation only looks at the document. -/
def isTest : Operation → Bool
  | test _ _ => true
  | _ => false

/-- Applies an operation; only a test may be about the root. -/
def apply (op : Operation) (target : Value) : Change Unit :=
  let path := Path.ofPointer op.path
  if path.isEmpty && !op.isTest then
    (.error (.patchOperation op.name "cannot modify the document root"), target)
  else Patch.applyAt target path op

/-- Applies operations in order until one fails. -/
def applyAll : List Operation → Value → Change Unit
  | [], target => (.ok (), target)
  | op :: rest, target =>
    match op.apply target with
    | (.ok (), left) => applyAll rest left
    | (.error fault, left) => (.error fault, left)

/-- The document after all operations, if none fails. -/
def patched (ops : List Operation) (base : Value) : Except Fault Value :=
  match applyAll ops base with
  | (.ok (), left) => .ok left
  | (.error fault, _) => .error fault

end Operation

end Manifest
