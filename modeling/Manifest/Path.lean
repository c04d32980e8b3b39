/-!
# Paths

A path is a list of segments from the root of a document downwards.  An array takes two of them: the
key under which it stands and, after it, which of its elements is meant.  The segment `-` means any
element when a document is read and a new one when it is written; a run of decimal digits means the
element at that position; every other segment is a key.

`Role.ofSegment` says which of the three a segment is, and `Path.split` and `Path.arrayRole` find
the arrays of a path from its segments alone.
-/

namespace Manifest

/-- The segments from the root downwards. -/
abbrev Path := List String

/-- The segment that means any element, or a new one. -/
def traversal : String := "-"

/-- The segment of the element at a position. -/
def indexSegment (n : Nat) : String := toString n

/-- What a segment means. -/
inductive Role where
  | key
  | index (n : Nat)
  | any
deriving DecidableEq

namespace Role

/-- The number written by one or more decimal digits; leading zeros are allowed. -/
def position? (digits : List Char) : Option Nat :=
  if digits ≠ [] && digits.all Char.isDigit then some (Nat.ofDigitChars 10 digits 0) else none

/-- What a segment means. -/
def ofSegment (segment : String) : Role :=
  if segment = traversal then any
  else
    match position? segment.toList with
    | some n => index n
    | none => key

/-- The segment addresses elements of an array. -/
def ofArray (r : Role) : Bool := r ≠ key

theorem ofArray_iff {r : Role} : r.ofArray = true ↔ r ≠ key := decide_eq_true_iff

@[simp] theorem ofSegment_traversal : ofSegment traversal = any := rfl

@[simp] theorem position?_toDigits (n : Nat) : position? (Nat.toDigits 10 n) = some n := by
  have h : (Nat.toDigits 10 n).all Char.isDigit = true :=
    List.all_eq_true.mpr fun _ hc => Nat.isDigit_of_mem_toDigits (by decide) (by decide) hc
  simp [position?, h, Nat.toDigits_ne_nil, Nat.ofDigitChars_ten_toDigits]

theorem indexSegment_ne_traversal (n : Nat) : indexSegment n ≠ traversal := by
  intro h
  have hl : (indexSegment n).toList = traversal.toList := by rw [h]
  have hm : '-' ∈ Nat.toDigits 10 n := by
    simp only [indexSegment, Nat.toString_eq_ofList_toDigits, String.toList_ofList] at hl
    rw [hl]
    decide
  exact absurd (Nat.isDigit_of_mem_toDigits (by decide) (by decide) hm) (by decide)

@[simp] theorem ofSegment_indexSegment (n : Nat) : ofSegment (indexSegment n) = index n := by
  unfold ofSegment
  rw [if_neg (indexSegment_ne_traversal n)]
  simp [indexSegment]

end Role

theorem indexSegment_inj {m n : Nat} : indexSegment m = indexSegment n ↔ m = n :=
  ⟨fun h => by simpa using congrArg Role.ofSegment h, fun h => h ▸ rfl⟩

namespace Path

/-- Splits off the last key.  Segments after it that address array elements are dropped; a path of
nothing else is cut behind its first segment. -/
def split (path : Path) : Path × String :=
  match path.reverse.dropWhile fun s => (Role.ofSegment s).ofArray with
  | key :: before => (before.reverse, key)
  | [] => ([], path.headD "")

/-- How the segment at a position addresses an array: by its own meaning, or else, naming the array,
by that of the segment after it; `key` if neither does. -/
def arrayRole (path : Path) (position : Int) : Role :=
  if position < 0 then .key
  else
    match path.drop position.toNat with
    | [] => .key
    | segment :: rest =>
      if (Role.ofSegment segment).ofArray then Role.ofSegment segment
      else (rest.head?.map Role.ofSegment).getD .key

/-- The path with its last segment replaced by `-`. -/
def withTraversalLast (path : Path) : Path := path.dropLast ++ [traversal]

/-! ## Well-known places -/

def metadata : Path := ["metadata"]

def metadataName : Path := ["metadata", "name"]

def metadataGenerateName : Path := ["metadata", "generateName"]

def metadataNamespace : Path := ["metadata", "namespace"]

def labels : Path := ["metadata", "labels"]

def annotations : Path := ["metadata", "annotations"]

def ownerReferences : Path := ["metadata", "ownerReferences"]

def ownerReferenceKind : Path := ["metadata", "ownerReferences", traversal, "kind"]

def spec : Path := ["spec"]

end Path

end Manifest
