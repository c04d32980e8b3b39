import Manifest.Value

/-!
# Identity of values

Whether two values are one is decidable (`isEq_iff`).  Unlike `same`, identity tells the two zeros
apart and looks at the order of members.
-/

namespace Manifest.Value

mutual

/-- Whether two values are one, member for member in the same order. -/
def isEq : Value → Value → Bool
  | absent, absent => true
  | vacant, vacant => true
  | null, null => true
  | bool a, bool b => a = b
  | number a, number b => a = b
  | string a, string b => a = b
  | array a, array b => itemsAreEq a b
  | record k a, record l b => k = l && membersAreEq a b
  | foreign a, foreign b => a = b
  | _, _ => false

/-- Whether two lists of values are one. -/
def itemsAreEq : List Value → List Value → Bool
  | [], [] => true
  | a :: s, b :: t => isEq a b && itemsAreEq s t
  | _, _ => false

/-- Whether two lists of members are one. -/
def membersAreEq : List (String × Value) → List (String × Value) → Bool
  | [], [] => true
  | (k, a) :: s, (l, b) :: t => k = l && isEq a b && membersAreEq s t
  | _, _ => false

end

mutual

theorem isEq_iff : ∀ a b : Value, isEq a b = true ↔ a = b
  | absent, b => by cases b <;> simp [isEq]
  | vacant, b => by cases b <;> simp [isEq]
  | null, b => by cases b <;> simp [isEq]
  | bool _, b => by cases b <;> simp [isEq]
  | number _, b => by cases b <;> simp [isEq]
  | string _, b => by cases b <;> simp [isEq]
  | array a, b => by cases b <;> simp [isEq, itemsAreEq_iff a]
  | record _ a, b => by cases b <;> simp [isEq, membersAreEq_iff a]
  | foreign _, b => by cases b <;> simp [isEq]

theorem itemsAreEq_iff : ∀ a b : List Value, itemsAreEq a b = true ↔ a = b
  | [], b => by cases b <;> simp [itemsAreEq]
  | a :: s, b => by cases b <;> simp [itemsAreEq, isEq_iff a, itemsAreEq_iff s]

theorem membersAreEq_iff : ∀ a b : List (String × Value), membersAreEq a b = true ↔ a = b
  | [], b => by cases b <;> simp [membersAreEq]
  | (_, a) :: s, b => by
    cases b <;> simp [membersAreEq, isEq_iff a, membersAreEq_iff s, Prod.ext_iff]

end

instance : DecidableEq Value := fun a b => decidable_of_iff _ (isEq_iff a b)

end Manifest.Value
