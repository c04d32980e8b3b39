import Manifest.Proofs.UnitOrder

/-!
# Sameness by number

`Value.sameBy` is equality of content with the comparison of numbers left open; `Value.same` is the
instance for numbers of one value (`sameBy_same`).  Two documents are same exactly if they are alike
by constructor: arrays element by element (`sameBy_array_iff`), and records, whatever the order of
their members, entry by entry once the entries are sorted by their keys (`sameBy_object_iff`).
-/

namespace Manifest.Value

mutual

/-- Equality of content, with numbers compared as given. -/
def sameBy (eq : Number → Number → Bool) : Value → Value → Bool
  | absent, b => b.present?.isNone
  | vacant, b => b.present?.isNone
  | null, null => true
  | bool a, bool b => a == b
  | number a, number b => eq a b
  | string a, string b => a == b
  | array a, array b => itemsSameBy eq a b
  | record k a, record l b =>
    k.className? = l.className? &&
      (k.comparedByContent || (a.length == b.length && membersSameBy eq a b))
  | foreign a, foreign b => sameForeign a b
  | _, _ => false

/-- Elementwise equality of content, with numbers compared as given. -/
def itemsSameBy (eq : Number → Number → Bool) : List Value → List Value → Bool
  | [], [] => true
  | a :: s, b :: t => sameBy eq a b && itemsSameBy eq s t
  | _, _ => false

/-- Every member on the left has a member with the same key and content on the right, with numbers
compared as given. -/
def membersSameBy (eq : Number → Number → Bool) :
    List (String × Value) → List (String × Value) → Bool
  | [], _ => true
  | (key, a) :: rest, other =>
    (match Fields.get? other key with
      | some b => sameBy eq a b
      | none => false) && membersSameBy eq rest other

end

/-! ### Arrays and records -/

section Containers
variable {eq : Number → Number → Bool}

theorem itemsSameBy_iff {items others : List Value} :
    itemsSameBy eq items others = true ↔
      List.Forall₂ (fun v w => v.sameBy eq w = true) items others := by
  induction items generalizing others with
  | nil => cases others <;> simp [itemsSameBy]
  | cons v rest ih => cases others <;> simp [itemsSameBy, ih]

theorem membersSameBy_iff {members others : Fields Value} :
    membersSameBy eq members others = true ↔
      ∀ e ∈ members, ∃ w, Fields.get? others e.1 = some w ∧ e.2.sameBy eq w = true := by
  induction members with
  | nil => simp [membersSameBy]
  | cons e rest ih =>
    rw [membersSameBy, Bool.and_eq_true, ih, List.forall_mem_cons]
    cases Fields.get? others e.1 <;> simp

theorem sameBy_array_iff {items others : List Value} :
    (array items).sameBy eq (array others) = true ↔
      List.Forall₂ (fun v w => v.sameBy eq w = true) items others := by
  rw [sameBy, itemsSameBy_iff]

/-- **Records are compared in the order of their keys.** -/
theorem sameBy_object_iff {members others : Fields Value} (hm : Fields.Distinct members)
    (ho : Fields.Distinct others) :
    (object members).sameBy eq (object others) = true ↔
      List.Forall₂ (fun e f => e.1 = f.1 ∧ e.2.sameBy eq f.2 = true)
        (Text.sortByUnits members) (Text.sortByUnits others) := by
  rw [Fields.forall₂_sortByUnits_iff (R := fun v w => v.sameBy eq w = true) hm ho, sameBy]
  simp [RecordKind.comparedByContent, membersSameBy_iff]

end Containers

/-- **Equality of content compares numbers by value.** -/
theorem sameBy_same (v w : Value) : v.sameBy Number.same w = v.same w := by
  induction v using nodeInduction generalizing w with
  | absent => simp only [sameBy, same]
  | vacant => simp only [sameBy, same]
  | null => cases w <;> simp only [sameBy, same]
  | bool b => cases w <;> simp only [sameBy, same]
  | number n => cases w <;> simp only [sameBy, same]
  | string s => cases w <;> simp only [sameBy, same]
  | foreign f => cases w <;> simp only [sameBy, same]
  | array items ih =>
    have hitems : ∀ others, itemsSameBy Number.same items others = sameItems items others := by
      induction items with
      | nil => intro others; cases others <;> rfl
      | cons v rest ihr =>
        obtain ⟨hv, hrest⟩ := List.forall_mem_cons.mp ih
        intro others
        cases others with
        | nil => rfl
        | cons w more => rw [itemsSameBy, sameItems, hv, ihr hrest]
    cases w <;> simp only [sameBy, same, hitems]
  | record kind members ih =>
    have hmembers : ∀ others,
        membersSameBy Number.same members others = sameMembers members others := by
      intro others
      induction members with
      | nil => rfl
      | cons e rest ihr =>
        obtain ⟨he, hrest⟩ := List.forall_mem_cons.mp ih
        rw [membersSameBy, sameMembers, ihr hrest]
        cases Fields.get? others e.1 with
        | none => rfl
        | some w => simp only [he]
    cases w <;> simp only [sameBy, same, hmembers]

theorem same_array_iff {items others : List Value} :
    (array items).same (array others) = true ↔
      List.Forall₂ (fun v w => v.same w = true) items others := by
  rw [← sameBy_same, sameBy_array_iff]
  simp only [sameBy_same]

theorem same_record_iff {kind other : RecordKind} (hk : kind.comparedByContent = false)
    {members others : Fields Value} : (record kind members).same (record other others) = true ↔
      kind.className? = other.className? ∧ members.length = others.length ∧
        ∀ e ∈ members, ∃ w, Fields.get? others e.1 = some w ∧ e.2.same w = true := by
  rw [← sameBy_same, sameBy]
  simp [hk, membersSameBy_iff, sameBy_same]

end Manifest.Value
