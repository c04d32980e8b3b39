import Manifest.Fields
import Manifest.Number

/-!
# Document values

A document is a tree of records and arrays over scalars.  Besides the values that a document text
can hold, `Value` has those that only a program can put into one: nothing at all (`absent`), places
of an array that were emptied (`vacant`), things without members (`Foreign`) and records that are
instances of some class or inherit from another value (`RecordKind`).  They are told apart because
look-ups meet them, and because the fingerprint and the label selectors refuse them.

`same` is equality of content: records are compared whatever the order of their keys, numbers by
value.
-/

namespace Manifest

/-- Values without members that no document text can hold. -/
inductive Foreign where
  | function
  | bigInt
  | symbol
deriving DecidableEq

/-- What a record is besides its members. -/
inductive RecordKind where
  /-- An ordinary record. -/
  | plain
  /-- A record detached from any class. -/
  | bare
  /-- An instance of a class. -/
  | instanceOf (className : String)
  /-- An heir of another value, which is its prototype and gives it its class.  The flag says whether
  it can be given another prototype by an assignment. -/
  | heir (className : String) (takesPrototype : Bool)
deriving DecidableEq

/-- The class of a record; ordinary records have one too. -/
def RecordKind.className? : RecordKind → Option String
  | .plain => some "Object"
  | .bare => none
  | .instanceOf className => some className
  | .heir className _ => some className

/-- Whether a record holds content of its own, besides its members. -/
def RecordKind.holdsContent : RecordKind → Bool
  | .instanceOf className => ["Date", "Map", "Set", "RegExp"].contains className
  | _ => false

/-- Whether records are compared by the content of their own alone.  All that a document can have of
one such class hold the same content. -/
def RecordKind.comparedByContent : RecordKind → Bool
  | .instanceOf className => ["Date", "RegExp"].contains className
  | _ => false

/-- The type name of a value without members. -/
def Foreign.typeName : Foreign → String
  | .function => "function"
  | .bigInt => "bigint"
  | .symbol => "symbol"

/-- The type name of a record: an instance has that of its class, and so has an heir.  A member
called `constructor`, which would be asked in place of the class, is not looked at. -/
def RecordKind.typeName : RecordKind → String
  | .plain => "object"
  | .bare => "object"
  | .instanceOf className => className
  | .heir className _ => className

/-- A node of a document. -/
inductive Value where
  /-- No value. -/
  | absent
  /-- A place of an array whose element was taken away; it is read as no value. -/
  | vacant
  | null
  | bool (b : Bool)
  | number (n : Number)
  | string (s : String)
  | array (items : List Value)
  | record (kind : RecordKind) (members : List (String × Value))
  | foreign (f : Foreign)

namespace Value

instance : Inhabited Value := ⟨absent⟩

/-- An ordinary record. -/
abbrev object (members : Fields Value) : Value := record .plain members

/-- `absent` stands for no value, and so does `vacant`. -/
def present? : Value → Option Value
  | absent => none
  | vacant => none
  | v => some v

@[simp] theorem present?_absent : present? absent = none := rfl

@[simp] theorem present?_vacant : present? vacant = none := rfl

theorem present?_eq_some_iff {v w : Value} :
    present? v = some w ↔ v = w ∧ v ≠ absent ∧ v ≠ vacant := by
  cases v <;> simp [present?]

/-! ## Names of types -/

/-- The short name of a value's type that messages use. -/
def typeName : Value → String
  | absent => "undefined"
  | vacant => "undefined"
  | null => "null"
  | bool _ => "boolean"
  | number _ => "number"
  | string _ => "string"
  | array _ => "array"
  | record kind _ => kind.typeName
  | foreign f => f.typeName

/-! ## Equality of content -/

/-- Things without members: two big integers are one, but functions and symbols are never the same
thing twice. -/
def sameForeign : Foreign → Foreign → Bool
  | .bigInt, .bigInt => true
  | _, _ => false

mutual

/-- Equality of content.  Of what a record is besides its members only its class counts. -/
def same : Value → Value → Bool
  | absent, b => b.present?.isNone
  | vacant, b => b.present?.isNone
  | null, null => true
  | bool a, bool b => a == b
  | number a, number b => a.same b
  | string a, string b => a == b
  | array a, array b => sameItems a b
  | record k a, record l b =>
    k.className? = l.className? &&
      (k.comparedByContent || (a.length == b.length && sameMembers a b))
  | foreign a, foreign b => sameForeign a b
  | _, _ => false

/-- Elementwise equality of content. -/
def sameItems : List Value → List Value → Bool
  | [], [] => true
  | a :: s, b :: t => same a b && sameItems s t
  | _, _ => false

/-- Every member on the left has a member with the same key and content on the right. -/
def sameMembers : List (String × Value) → List (String × Value) → Bool
  | [], _ => true
  | (key, a) :: rest, other =>
    (match Fields.get? other key with
      | some b => same a b
      | none => false) && sameMembers rest other

end

/-! ## Values that a document text can hold -/

mutual

/-- Nothing foreign at any depth, and no key twice in a record. -/
def isDocument : Value → Bool
  | null => true
  | bool _ => true
  | number _ => true
  | string _ => true
  | array items => areDocuments items
  | record .plain members => decide (Fields.Distinct members) && membersAreDocuments members
  | _ => false

/-- Every item is a document. -/
def areDocuments : List Value → Bool
  | [] => true
  | v :: rest => isDocument v && areDocuments rest

/-- Every member's value is a document. -/
def membersAreDocuments : List (String × Value) → Bool
  | [] => true
  | (_, v) :: rest => isDocument v && membersAreDocuments rest

end

/-! ## Members and elements -/

/-- The elements of an array. -/
def items? : Value → Option (List Value)
  | array items => some items
  | _ => none

/-- The members of a record. -/
def members? : Value → Option (Fields Value)
  | record _ members => some members
  | _ => none

/-- The member of a record under a key. -/
def member? (v : Value) (key : String) : Option Value := v.members?.bind (Fields.get? · key)

end Value

end Manifest
