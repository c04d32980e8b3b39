import Manifest.Value

/-!
# Prototypes

A record inherits from its prototype, which gives it its class.  No look-up sees what is inherited,
but one key is special when a record is written to: an assignment under `prototypeKey` gives the
record another prototype instead of a member, unless it has a member of that name already
(`Value.adopts`).  Whatever cannot be a prototype is then lost without a word.

All other assignments write a member (`assign_of_not_adopts`).  The members that a document text
gives a record are not assigned, so a record of a document can have one called `prototypeKey`.
-/

namespace Manifest

/-- The key under which a record is assigned its prototype. -/
def prototypeKey : String := "__proto__"

namespace RecordKind

/-- Whether an assignment can give a record another prototype: one that is detached from any class
does not know of prototypes, and the prototype of an heir may have a member in their place. -/
def takesPrototype : RecordKind → Bool
  | plain => true
  | bare => false
  | instanceOf _ => true
  | heir _ takes => takes

/-- The kind of the heirs of a record; whether it `hides` the prototype is whether it has a member in
its place. -/
def ofHeirs (kind : RecordKind) (hides : Bool) : RecordKind :=
  match kind.className? with
  | none => bare
  | some className => heir className (kind.takesPrototype && !hides)

end RecordKind

namespace Value

/-- The kind of the heirs of a value, if it can be a prototype. -/
def heirKind? : Value → Option RecordKind
  | null => some .bare
  | array _ => some (.heir "Array" true)
  | record kind members => some (kind.ofHeirs (Fields.contains members prototypeKey))
  | foreign .function => some (.heir "Function" true)
  | _ => none

/-- An assignment under the key gives the record another prototype instead of a member. -/
def adopts : Value → String → Bool
  | record kind members, key =>
    key = prototypeKey && kind.takesPrototype && !Fields.contains members key
  | _, _ => false

/-- A record after the assignment of a value under a key. -/
def assign (kind : RecordKind) (members : Fields Value) (key : String) (new : Value) : Value :=
  if (record kind members).adopts key then record (new.heirKind?.getD kind) members
  else record kind (Fields.insert members key new)

section Assign
variable {kind : RecordKind} {members : Fields Value} {key : String}

theorem adopts_record_iff : (record kind members).adopts key = true ↔
    key = prototypeKey ∧ kind.takesPrototype = true ∧ Fields.get? members key = none := by
  simp [adopts, Fields.contains, and_assoc]

theorem not_adopts_of_ne (v : Value) (h : key ≠ prototypeKey) : v.adopts key = false := by
  cases v <;> simp [adopts, h]

theorem not_adopts_of_get? {old : Value} (h : Fields.get? members key = some old) :
    (record kind members).adopts key = false := by
  simp [adopts, Fields.contains, h]

theorem assign_of_not_adopts (h : (record kind members).adopts key = false) (new : Value) :
    assign kind members key new = record kind (Fields.insert members key new) := by
  simp [assign, h]

theorem assign_of_adopts (h : (record kind members).adopts key = true) (new : Value) :
    assign kind members key new = record (new.heirKind?.getD kind) members := by
  simp [assign, h]

theorem assign_of_get? {old : Value} (h : Fields.get? members key = some old) (new : Value) :
    assign kind members key new = record kind (Fields.insert members key new) :=
  assign_of_not_adopts (not_adopts_of_get? h) new

theorem assign_eq_insert_iff (h : Fields.get? members key = none) (new : Value) :
    assign kind members key new = record kind (Fields.insert members key new) ↔
      (record kind members).adopts key = false := by
  refine ⟨fun he => ?_, fun ha => assign_of_not_adopts ha new⟩
  rw [Bool.eq_false_iff]
  intro ha
  rw [assign_of_adopts ha, record.injEq] at he
  have hg := congrArg (fun m => Fields.get? m key) he.2
  simp [h] at hg

end Assign

end Value

end Manifest
