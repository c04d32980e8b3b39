import Manifest.Addition

/-!
# Changing a document

Operations that write into a document.  What they leave behind is given also when they fail, since a
visit may have written something before it did.
-/

namespace Manifest

/-- The outcome of an operation that writes, and the document after it. -/
abbrev Change (α : Type) := Except Fault α × Value

namespace Visitor

/-- Writes a value in place of a target. -/
def writing (value : Value) : Visitor where
  rewrite := some fun _ _ => .ok value

/-- Removes a target. -/
def removing : Visitor := writing .absent

end Visitor

namespace Value

/-- Writes a value at a path, together with what has to be created on the way there, and gives the
path of the place written. -/
def set (root : Value) (path : Path) (value : Value) : Change Path :=
  match root.additionFor path value with
  | .error fault => (.error fault, root)
  | .ok addition =>
    let o := (Visitor.writing addition.value).run 0 root addition.path
    (o.result.map fun _ => addition.path, o.left)

/-- Removes the member or element at a path.  A last key need not be there. -/
def erase (root : Value) (path : Path) : Change Unit :=
  let o := Visitor.removing.run 0 root path
  (o.result.map fun _ => (), o.left)

end Value

end Manifest
