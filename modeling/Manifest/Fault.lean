/-!
# Faults

The causes for which an operation on a document fails, and the message of each.  A fault is
*structural* when it speaks about the document or the request; traversals of an array pass over the
elements that have one.  The other two end every traversal: `interrupted`, a visitor's own doing,
and `endless`, a visit that has used up its budget.
-/

namespace Manifest

/-- What is wrong with an entry of a label selector. -/
inductive SelectorIssue where
  /-- There is nothing where a text is needed. -/
  | required
  /-- The entry is of another type. -/
  | wrongType (expected received : String)
  /-- The text is none of those allowed. -/
  | notAmong (allowed received : String)
deriving DecidableEq

/-- The text of an issue. -/
def SelectorIssue.message : SelectorIssue → String
  | required => "Required"
  | wrongType expected received => "Expected " ++ expected ++ ", received " ++ received
  | notAmong allowed received =>
    "Invalid enum value. Expected " ++ allowed ++ ", received '" ++ received ++ "'"

/-- Why an operation failed. -/
inductive Fault where
  /-- A key, an index or a traversal does not resolve, or the value found was turned down. -/
  | notFound (segment : String)
  /-- Segments remain at a value that has nothing below it. -/
  | notTraversable (reason : String)
  /-- An array segment meets the record at `segment`. -/
  | notAnArray (segment : String)
  /-- A key meets the array at `segment`. -/
  | missingArrayTraversal (segment : String)
  /-- A typed look-up met a value of another type. -/
  | incorrectType (actual : String)
  /-- A document would have to be extended at a given index. -/
  | indexNotation
  /-- A value below `key` has no fingerprint. -/
  | unsupportedHashType (key type : String)
  /-- A resource without a name. -/
  | missingName
  /-- A patch operation cannot be applied. -/
  | patchOperation (operation detail : String)
  /-- The entry `place` of a label selector is of the wrong kind. -/
  | labelSelector (place : List String) (issue : SelectorIssue)
  /-- Anything else that an operation reports in words. -/
  | failure (message : String)
  /-- A text that is not a document. -/
  | malformedText
  /-- A visitor ended the visit. -/
  | interrupted (message : String)
  /-- A visit did not end within its budget. -/
  | endless
deriving DecidableEq

namespace Fault

/-- The text of a fault. -/
def message : Fault → String
  | notFound segment => "Not found: " ++ segment
  | notTraversable reason => "Not a traversable type: " ++ reason
  | notAnArray segment => "Not an array: " ++ segment
  | missingArrayTraversal segment => "Array traversal indicator missing: " ++ segment
  | incorrectType actual => "Incorrect type: " ++ actual
  | indexNotation => "Cannot append to array using index notation"
  | unsupportedHashType key type =>
    "cannot create hash for field " ++ key ++ " of type " ++ type
  | missingName => "object does not have a name set"
  | patchOperation operation detail => operation ++ ": " ++ detail
  | labelSelector place issue =>
    "failed to parse " ++ ".".intercalate place ++ ": " ++ issue.message
  | failure message => message
  | malformedText => "malformed document text"
  | interrupted message => message
  | endless => "the visit does not end"

/-- Traversals pass over elements with such a fault. -/
def isStructural : Fault → Bool
  | malformedText => false
  | interrupted _ => false
  | endless => false
  | _ => true

/-- Whether the fault says that a place does not resolve. -/
def isNotFound : Fault → Bool
  | notFound _ => true
  | _ => false

end Fault

/-- Outcomes are compared fault by fault and value by value. -/
instance {α : Type} [DecidableEq α] : DecidableEq (Except Fault α)
  | .ok a, .ok b => decidable_of_iff (a = b) (by simp)
  | .error f, .error g => decidable_of_iff (f = g) (by simp)
  | .ok _, .error _ => isFalse nofun
  | .error _, .ok _ => isFalse nofun

theorem toOption_eq_some_iff {α : Type} {result : Except Fault α} {a : α} :
    result.toOption = some a ↔ result = .ok a := by
  cases result <;> simp [Except.toOption]

end Manifest
