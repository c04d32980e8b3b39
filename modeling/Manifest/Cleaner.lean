import Manifest.Entries
import Manifest.Note

/-!
# Cleaners

A cleaner describes members to remove from a document: those named by `fields` at its own level, and
below the members named by `nested` whatever their cleaners describe.  A nested cleaner that
describes nothing removes its member as a whole.

`Cleaner.clean` leaves a member that is not a record where a nested cleaner wants to go on, and
notes a warning.  At the root it takes the entries of any value for members, so an element of an
array can be cleaned there, or removed from its place.
-/

namespace Manifest

/-- The members to remove from a record. -/
inductive Cleaner where
  | mk (fields : List String) (nested : List (String × Cleaner))

namespace Cleaner

/-- The members to remove at the top level. -/
def fields : Cleaner → List String
  | mk fields _ => fields

/-- The cleaners of the members to go on in. -/
def nested : Cleaner → List (String × Cleaner)
  | mk _ nested => nested

/-- A cleaner that describes nothing removes the whole member it stands for. -/
def removesWhole (c : Cleaner) : Bool := c.fields.isEmpty && c.nested.isEmpty

/-- The warning about a member that is not a record. -/
def skipping (place : String) : Note :=
  .warning ("field cleaner: " ++ place ++ " is not an object, skipping")

/-- Removes several members. -/
def eraseFields (fields : List String) (members : Fields Value) : Fields Value :=
  fields.foldl Fields.erase members

mutual

/-- Cleans the members of the record at `place`. -/
def cleanMembers (place : String) : Cleaner → Fields Value → Fields Value × List Note
  | mk fields nested, members => cleanNested place nested (eraseFields fields members)

/-- Lets the nested cleaners go on, one after the other. -/
def cleanNested (place : String) :
    List (String × Cleaner) → Fields Value → Fields Value × List Note
  | [], members => (members, [])
  | (key, c) :: rest, members =>
    if c.removesWhole then cleanNested place rest (Fields.erase members key)
    else
      match Fields.get? members key with
      | none => cleanNested place rest members
      | some (.record kind inner) =>
        let (inner, notes) := cleanMembers (place ++ key ++ ".") c inner
        let cleaned := Fields.insert members key (.record kind inner)
        let (members, more) := cleanNested place rest cleaned
        (members, notes ++ more)
      | some _ =>
        let (members, more) := cleanNested place rest members
        (members, skipping (place ++ key) :: more)

end

/-- Cleans a document.  The entries of its root, and its length if it has one, do as members. -/
def clean (c : Cleaner) (root : Value) : Value × List Note :=
  let (left, notes) := cleanMembers "" c (root.entries ++ root.lengthEntry)
  (root.withEntries left, notes)

theorem clean_record (c : Cleaner) (kind : RecordKind) (members : Fields Value) :
    c.clean (.record kind members) =
      (.record kind (cleanMembers "" c members).1, (cleanMembers "" c members).2) := by
  simp [clean, Value.entries, Value.lengthEntry, Value.withEntries]

/-- The members that a cluster maintains and that no desired state holds. -/
def managed : Cleaner :=
  mk [] [
    ("metadata", mk
      ["managedFields", "creationTimestamp", "generation", "resourceVersion", "uid", "finalizers"]
      [
        ("labels", mk ["app.kubernetes.io/managed-by"] []),
        ("annotations", mk
          ["deployment.kubernetes.io/revision", "kubectl.kubernetes.io/last-applied-configuration"]
          [])]),
    ("status", mk [] [])]

end Cleaner

end Manifest
