import Manifest.Path
import Manifest.Text.Units
import Manifest.Value

/-!
# Entries

Every value can be looked at as keyed entries: those of a record are its members, those of an array
its elements under their positions, those of a text its 16-bit units under theirs, and other values
have none.  A vacant place of an array is no entry.

`Value.withEntries` puts entries back.  Entries that were not touched go back to where they were
(`withEntries_entries`).
-/

namespace Manifest.Value

/-- A place of an array without an element. -/
def isVacant : Value → Bool
  | vacant => true
  | _ => false

/-- The entries of an array whose first element stands at a position. -/
def itemEntries : Nat → List Value → Fields Value
  | _, [] => []
  | position, v :: rest =>
    if v.isVacant then itemEntries (position + 1) rest
    else (indexSegment position, v) :: itemEntries (position + 1) rest

/-- The entries of a value. -/
def entries : Value → Fields Value
  | record _ members => members
  | array items => itemEntries 0 items
  | string s =>
    itemEntries 0 ((s.toList.flatMap Text.unitReadings).map fun c => string (String.singleton c))
  | _ => []

/-- The entry for the length of a value that is a sequence. -/
def lengthEntry : Value → Fields Value
  | array items => [("length", number (.ofDecimal false items.length 0))]
  | string s => [("length", number (.ofDecimal false (Text.units s).length 0))]
  | _ => []

/-- The elements of an array, the first of them at a position, when its entries are the given ones;
where there is none the place is vacant. -/
def itemsOfEntries (left : Fields Value) : Nat → List Value → List Value
  | _, [] => []
  | position, _ :: rest =>
    (Fields.get? left (indexSegment position)).getD vacant ::
      itemsOfEntries left (position + 1) rest

/-- A value with other entries.  An array keeps its length, and what is no container stays as it
is. -/
def withEntries : Value → Fields Value → Value
  | record kind _, left => record kind left
  | array items, left => array (itemsOfEntries left 0 items)
  | v, _ => v

/-! ## Entries of arrays -/

theorem get?_itemEntries_of_lt (items : List Value) {position n : Nat} (h : n < position) :
    Fields.get? (itemEntries position items) (indexSegment n) = none := by
  induction items generalizing position with
  | nil => rfl
  | cons v rest ih =>
    have hn : position ≠ n := by omega
    have hr := ih (Nat.lt_succ_of_lt h)
    by_cases hv : v.isVacant <;> simp [itemEntries, hv, Fields.get?, indexSegment_inj, hn, hr]

theorem get?_itemEntries (items : List Value) (position n : Nat) :
    Fields.get? (itemEntries position items) (indexSegment (position + n)) =
      items[n]?.filter fun v => !v.isVacant := by
  induction items generalizing position n with
  | nil => simp [itemEntries]
  | cons v rest ih =>
    cases n with
    | zero =>
      have hl := get?_itemEntries_of_lt rest (Nat.lt_succ_self position)
      by_cases hv : v.isVacant <;> simp [itemEntries, hv, Fields.get?, hl, Option.filter]
    | succ n =>
      have hs : position + (n + 1) = position + 1 + n := by omega
      have hn : position ≠ position + 1 + n := by omega
      by_cases hv : v.isVacant <;>
        simp [itemEntries, hv, Fields.get?, hs, indexSegment_inj, hn, ih]

theorem itemsOfEntries_eq {left : Fields Value} (items : List Value) (position : Nat)
    (h : ∀ n, Fields.get? left (indexSegment (position + n)) =
      items[n]?.filter fun v => !v.isVacant) :
    itemsOfEntries left position items = items := by
  induction items generalizing position with
  | nil => rfl
  | cons v rest ih =>
    have hv : (Fields.get? left (indexSegment position)).getD vacant = v := by
      have h0 := h 0
      simp only [Nat.add_zero, List.getElem?_cons_zero] at h0
      rw [h0]
      cases v <;> rfl
    have hr : itemsOfEntries left (position + 1) rest = rest := by
      refine ih (position + 1) fun n => ?_
      have hn := h (n + 1)
      rwa [show position + (n + 1) = position + 1 + n by omega, List.getElem?_cons_succ] at hn
    simp [itemsOfEntries, hv, hr]

@[simp] theorem withEntries_entries (v : Value) : v.withEntries v.entries = v := by
  cases v with
  | array items =>
    simp only [withEntries, entries]
    rw [itemsOfEntries_eq items 0 (get?_itemEntries items 0)]
  | _ => rfl

end Manifest.Value
