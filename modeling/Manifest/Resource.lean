import Manifest.Access
import Manifest.Cleaner
import Manifest.Fingerprint
import Manifest.Json.Reader
import Manifest.Path.Pointer
import Manifest.Text.LowerCase
import Manifest.Update

/-!
# Resources

A resource is a document with a name, either its own or one to be generated from.  `ofRecord` checks
that; afterwards the well-known fields are read and written by name.  Reading a well-known field
never fails: what is missing or of another type reads as nothing.
-/

namespace Manifest

/-- A document of a cluster. -/
structure Resource where
  root : Value

namespace Resource

/-! ## Making resources -/

/-- A resource with only a name. -/
def create (name : String) : Resource :=
  ⟨.object [("metadata", .object [("name", .string name)])]⟩

/-- A record as a resource, which needs a name or a name to generate from. -/
def ofRecord (record : Value) : Except Fault Resource := do
  if ← record.resolves Path.metadataName then
    return ⟨record⟩
  else if ← record.resolves Path.metadataGenerateName then
    return ⟨record⟩
  else
    throw .missingName

/-- The resource that a document text writes. -/
def ofText (text : String) : Except Fault Resource :=
  match Json.parse? text with
  | none => .error .malformedText
  | some (.record kind members) => ofRecord (.record kind members)
  | some _ => .error (.failure "document is not a JSON object")

/-! ## Changing resources -/

/-- The outcome of an operation that writes, the resource after it and what it reported. -/
structure Step (α : Type) where
  result : Except Fault α
  resource : Resource
  notes : List Note

/-- The report of a write that had to create parts of its path. -/
def creating (written path : Path) : List Note :=
  if written.length = path.length then []
  else [.debug ("created " ++ written.toPointer ++ " to set " ++ path.toPointer)]

/-- Writes a value, together with what is missing on the way to it. -/
def set (r : Resource) (path : Path) (value : Value) : Step Unit :=
  match r.root.set path value with
  | (.ok written, left) => ⟨.ok (), ⟨left⟩, creating written path⟩
  | (.error fault, left) => ⟨.error fault, ⟨left⟩, []⟩

/-- Removes what stands at a path. -/
def erase (r : Resource) (path : Path) : Step Unit :=
  let (result, left) := r.root.erase path
  ⟨result, ⟨left⟩, []⟩

/-- Removes what a cleaner describes. -/
def clean (r : Resource) (cleaner : Cleaner) : Step Unit :=
  let (left, notes) := cleaner.clean r.root
  ⟨.ok (), ⟨left⟩, notes⟩

/-- Removes the members that the cluster maintains. -/
def removeManaged (r : Resource) : Step Unit := r.clean Cleaner.managed

/-! ## Well-known fields -/

/-- The text at a path, if there is one. -/
def optionalString (r : Resource) (path : Path) : Option String := (r.root.getString path).toOption

/-- The text at a path, or the empty text. -/
def field (r : Resource) (path : Path) : String := (r.optionalString path).getD ""

/-- The name, or else the one to generate it from. -/
def name (r : Resource) : String :=
  match r.optionalString Path.metadataName with
  | some name => name
  | none => r.field Path.metadataGenerateName

def nameSpace (r : Resource) : String := r.field Path.metadataNamespace

def kind (r : Resource) : String := r.field ["kind"]

def version (r : Resource) : String := r.field ["apiVersion"]

def uid (r : Resource) : String := r.field ["metadata", "uid"]

/-- The kind of the first owner. -/
def ownerKind (r : Resource) : String := r.field Path.ownerReferenceKind

def setName (r : Resource) (name : String) : Step Unit := r.set Path.metadataName (.string name)

def setNamespace (r : Resource) (name : String) : Step Unit :=
  r.set Path.metadataNamespace (.string name)

/-- Whether the text at a path is there and equal but for case. -/
def isSetTo (r : Resource) (path : Path) (value : String) : Bool :=
  match r.optionalString path with
  | some s => Text.equalFold s value
  | none => false

/-- Whether kind and version are the given ones but for case; an empty text allows any. -/
def isOfKind (r : Resource) (kind version : String) : Bool :=
  (kind = "" || r.isSetTo ["kind"] kind) && (version = "" || r.isSetTo ["apiVersion"] version)

/-! ## Labels and annotations -/

def labelPath (key : String) : Path := Path.labels ++ [key]

def annotationPath (key : String) : Path := Path.annotations ++ [key]

def label (r : Resource) (key : String) : Except Fault String := r.root.getString (labelPath key)

def hasLabels (r : Resource) : Except Fault Bool := r.root.resolves Path.labels

def isLabelSetTo (r : Resource) (key value : String) : Bool := r.isSetTo (labelPath key) value

def setLabel (r : Resource) (key value : String) : Step Unit :=
  r.set (labelPath key) (.string value)

def annotation (r : Resource) (key : String) : Except Fault String :=
  r.root.getString (annotationPath key)

def hasAnnotations (r : Resource) : Except Fault Bool := r.root.resolves Path.annotations

def isAnnotationSetTo (r : Resource) (key value : String) : Bool :=
  r.isSetTo (annotationPath key) value

def setAnnotation (r : Resource) (key value : String) : Step Unit :=
  r.set (annotationPath key) (.string value)

end Resource

end Manifest
