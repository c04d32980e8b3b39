import Manifest.Fault
import Manifest.Path
import Manifest.Value

/-!
# Label selectors

A label selector asks for labels with given values and for labels that fulfil requirements.  It is
written as a record with `matchLabels` and `matchExpressions`; a record with neither of them is read
as the labels themselves.

`Selector.ofValue` reads one and names the first entry that is wrong: labels before requirements,
each in order, and within a requirement its key, its operator and its values.
-/

namespace Manifest

/-- How a requirement relates a label to its values. -/
inductive Relation where
  | isIn
  | isNotIn
  | isPresent
  | isMissing
deriving DecidableEq

namespace Relation

/-- The written form of a relation. -/
def text : Relation → String
  | isIn => "In"
  | isNotIn => "NotIn"
  | isPresent => "Exists"
  | isMissing => "DoesNotExist"

/-- The relation with a written form. -/
def ofText? (s : String) : Option Relation :=
  [isIn, isNotIn, isPresent, isMissing].find? fun r => r.text = s

/-- The written forms, as messages list them. -/
def alternatives : String := "'In' | 'NotIn' | 'Exists' | 'DoesNotExist'"

end Relation

/-- A requirement on the label under a key. -/
structure Requirement where
  key : String
  relation : Relation
  values : List String
deriving DecidableEq

/-- A label selector. -/
structure Selector where
  matchLabels : Fields String
  matchExpressions : List Requirement
deriving DecidableEq

namespace Selector

/-- The type of a value as issues name it. -/
def typeWord : Value → String
  | .number n => if n.isNaN then "nan" else "number"
  | .record (.instanceOf name) _ =>
    if name = "Date" then "date"
    else if name = "Map" then "map"
    else if name = "Set" then "set"
    else "object"
  | v => v.typeName

/-- The issue of a value that should be something else. -/
def mismatch (expected : String) (v : Value) : SelectorIssue :=
  match v.present? with
  | none => .required
  | some v => .wrongType expected (typeWord v)

/-- Reads a text. -/
def text (place : List String) : Value → Except Fault String
  | .string s => .ok s
  | v => .error (.labelSelector place (mismatch "string" v))

/-- The members of a record in the order of enumeration. -/
def members (place : List String) (v : Value) : Except Fault (Fields Value) :=
  match v with
  | .record _ members =>
    if typeWord v = "object" then .ok (Fields.enumerate members)
    else .error (.labelSelector place (mismatch "object" v))
  | v => .error (.labelSelector place (mismatch "object" v))

/-- Reads the labels under some members. -/
def textMembers (place : List String) : Fields Value → Except Fault (Fields String)
  | [] => .ok []
  | (key, v) :: rest => do
    let s ← text (place ++ [key]) v
    let more ← textMembers place rest
    return (key, s) :: more

/-- Reads a record of labels. -/
def labels (place : List String) (v : Value) : Except Fault (Fields String) := do
  textMembers place (← members place v)

/-- Reads elements one after the other, the first of them at a position. -/
def elements {α : Type} (read : List String → Value → Except Fault α) (place : List String) :
    Nat → List Value → Except Fault (List α)
  | _, [] => .ok []
  | position, v :: rest => do
    let a ← read (place ++ [indexSegment position]) v
    let more ← elements read place (position + 1) rest
    return a :: more

/-- Reads a list; none is an empty one. -/
def list {α : Type} (read : List String → Value → Except Fault α) (place : List String) :
    Value → Except Fault (List α)
  | .absent => .ok []
  | .array items => elements read place 0 items
  | v => .error (.labelSelector place (mismatch "array" v))

/-- Reads a relation. -/
def relation (place : List String) : Value → Except Fault Relation
  | .string s =>
    match Relation.ofText? s with
    | some r => .ok r
    | none => .error (.labelSelector place (.notAmong Relation.alternatives s))
  | v => .error (.labelSelector place (mismatch Relation.alternatives v))

/-- The member under a key, or `absent`. -/
def entry (m : Fields Value) (key : String) : Value := (Fields.get? m key).getD .absent

/-- Reads a requirement. -/
def requirement (place : List String) (v : Value) : Except Fault Requirement := do
  let m ← members place v
  let key ← text (place ++ ["key"]) (entry m "key")
  let relation ← relation (place ++ ["operator"]) (entry m "operator")
  let values ← list text (place ++ ["values"]) (entry m "values")
  return ⟨key, relation, values⟩

/-- Reads a record with labels and requirements. -/
def structured (place : List String) (v : Value) : Except Fault Selector := do
  let m ← members place v
  let matchLabels ←
    match entry m "matchLabels" with
    | .absent => .ok []
    | l => labels (place ++ ["matchLabels"]) l
  let matchExpressions ←
    list requirement (place ++ ["matchExpressions"]) (entry m "matchExpressions")
  return ⟨matchLabels, matchExpressions⟩

/-- Whether a value has a member of a structured selector. -/
def isStructured (v : Value) : Bool :=
  (v.member? "matchLabels").isSome || (v.member? "matchExpressions").isSome

/-- Reads a label selector. -/
def ofValue (v : Value) : Except Fault Selector :=
  if isStructured v then structured ["selector"] v
  else (labels ["selector"] v).map fun l => ⟨l, []⟩

/-! ## Writing -/

/-- Writes a list of texts. -/
def ofTexts (texts : List String) : Value := .array (texts.map .string)

/-- Writes a requirement. -/
def ofRequirement (r : Requirement) : Value :=
  .object [
    ("key", .string r.key),
    ("operator", .string r.relation.text),
    ("values", ofTexts r.values)]

/-- Writes a selector as a structured record. -/
def toValue (s : Selector) : Value :=
  .object [
    ("matchLabels", .object (Fields.mapValues Value.string s.matchLabels)),
    ("matchExpressions", .array (s.matchExpressions.map ofRequirement))]

end Selector

end Manifest
