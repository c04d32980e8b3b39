/-!
# Keyed entries

A list of entries with text keys, in the order in which the keys were first written.  Writing a key
that is present changes its entry in place, a new key goes to the end, and the key that stands first
decides if one is ever repeated.

The small lemmas say what each write does to the look-up `get?`, which is the view through which
everything else sees the entries.
-/

namespace Manifest

/-- Entries with text keys, in the order of their first writing. -/
abbrev Fields (α : Type) := List (String × α)

namespace Fields

variable {α β : Type}

/-- The keys in the order of the entries. -/
def keys (m : Fields α) : List String := m.map Prod.fst

/-- No key stands twice. -/
def Distinct (m : Fields α) : Prop := (keys m).Nodup

instance (m : Fields α) : Decidable (Distinct m) := inferInstanceAs (Decidable (List.Nodup _))

/-- The entry under a key. -/
def get? : Fields α → String → Option α
  | [], _ => none
  | (k, v) :: rest, key => if k = key then some v else get? rest key

/-- Whether there is an entry under the key. -/
def contains (m : Fields α) (key : String) : Bool := (get? m key).isSome

/-- Writes an entry: in place if the key is present, at the end otherwise. -/
def insert : Fields α → String → α → Fields α
  | [], key, v => [(key, v)]
  | (k, w) :: rest, key, v => if k = key then (k, v) :: rest else (k, w) :: insert rest key v

/-- Removes the entry under a key. -/
def erase (m : Fields α) (key : String) : Fields α := m.filter fun e => e.1 ≠ key

/-- Changes every entry and keeps its key. -/
def mapValues (f : α → β) (m : Fields α) : Fields β := m.map fun e => (e.1, f e.2)

/-! ## Order of enumeration

Keys that write an array position without superfluous zeros come first, in ascending order, and the
others follow as they stand.
-/

/-- The position below 4294967295 that a key writes without superfluous zeros. -/
def position? (key : String) : Option Nat :=
  if key.toList.all Char.isDigit && key.length ≤ 10 then
    let n := Nat.ofDigitChars 10 key.toList 0
    if toString n = key && n < 4294967295 then some n else none
  else none

/-- The entries in the order of enumeration. -/
def enumerate (m : Fields α) : Fields α :=
  let positions := m.filterMap fun e => (position? e.1).map fun n => (n, e)
  (positions.mergeSort fun a b => a.1 ≤ b.1).map Prod.snd ++
    m.filter fun e => (position? e.1).isNone

/-! ## Look-up after a write -/

@[simp] theorem get?_nil (key : String) : get? ([] : Fields α) key = none := rfl

theorem get?_cons (k : String) (v : α) (m : Fields α) (key : String) :
    get? ((k, v) :: m) key = if k = key then some v else get? m key := rfl

@[simp] theorem get?_insert_self (m : Fields α) (key : String) (v : α) :
    get? (insert m key v) key = some v := by
  induction m with
  | nil => simp [insert, get?]
  | cons e rest ih =>
    obtain ⟨k, w⟩ := e
    by_cases h : k = key <;> simp [insert, get?, h, ih]

theorem get?_insert_of_ne (m : Fields α) {key other : String} (v : α) (h : other ≠ key) :
    get? (insert m key v) other = get? m other := by
  induction m with
  | nil => simp [insert, get?, h.symm]
  | cons e rest ih =>
    obtain ⟨k, w⟩ := e
    by_cases hk : k = key
    · subst hk
      simp [insert, get?, h.symm]
    · simp [insert, get?, hk, ih]

@[simp] theorem get?_erase_self (m : Fields α) (key : String) : get? (erase m key) key = none := by
  induction m with
  | nil => rfl
  | cons e rest ih =>
    obtain ⟨k, w⟩ := e
    by_cases h : k = key
    · subst h
      simpa [erase] using ih
    · simpa [erase, get?, h] using ih

theorem get?_erase_of_ne (m : Fields α) {key other : String} (h : other ≠ key) :
    get? (erase m key) other = get? m other := by
  induction m with
  | nil => rfl
  | cons e rest ih =>
    obtain ⟨k, w⟩ := e
    by_cases hk : k = key
    · subst hk
      simpa [erase, get?, h.symm] using ih
    · by_cases ho : k = other
      · simp [erase, get?, ho, h]
      · simpa [erase, get?, hk, ho] using ih

theorem insert_of_get? {m : Fields α} {key : String} {v : α} (h : get? m key = some v) :
    insert m key v = m := by
  induction m with
  | nil => simp at h
  | cons e rest ih =>
    obtain ⟨k, w⟩ := e
    by_cases hk : k = key
    · simp_all [insert, get?]
    · simp_all [insert, get?]

theorem length_insert_of_get? {m : Fields α} {key : String} {w : α} (h : get? m key = some w)
    (v : α) : (insert m key v).length = m.length := by
  induction m with
  | nil => cases h
  | cons first rest ih =>
    obtain ⟨k, u⟩ := first
    rw [get?_cons] at h
    rw [insert]
    by_cases hk : k = key
    · rw [if_pos hk]
      rfl
    · rw [if_neg hk] at h ⊢
      rw [List.length_cons, List.length_cons, ih h]

theorem insert_insert (m : Fields α) (key : String) (v w : α) :
    insert (insert m key v) key w = insert m key w := by
  induction m with
  | nil => simp [insert]
  | cons e rest ih =>
    obtain ⟨k, u⟩ := e
    by_cases hk : k = key <;> simp [insert, hk, ih]

theorem insert_of_get?_none {m : Fields α} {key : String} (v : α) (h : get? m key = none) :
    insert m key v = m ++ [(key, v)] := by
  induction m with
  | nil => rfl
  | cons e rest ih =>
    obtain ⟨k, w⟩ := e
    by_cases hk : k = key
    · simp [get?, hk] at h
    · simp_all [insert, get?]

theorem erase_of_get?_none {m : Fields α} {key : String} (h : get? m key = none) :
    erase m key = m := by
  induction m with
  | nil => rfl
  | cons e rest ih =>
    obtain ⟨k, w⟩ := e
    by_cases hk : k = key
    · simp [get?, hk] at h
    · have hf := ih (by simpa [get?, hk] using h)
      unfold erase at hf ⊢
      rw [List.filter_cons_of_pos (by simpa using hk), hf]

theorem erase_insert_self (m : Fields α) (key : String) (v : α) :
    erase (insert m key v) key = erase m key := by
  induction m with
  | nil => simp [insert, erase]
  | cons e rest ih =>
    obtain ⟨k, w⟩ := e
    by_cases hk : k = key
    · simp [insert, erase, hk]
    · unfold erase at ih ⊢
      rw [insert, if_neg hk, List.filter_cons_of_pos (by simpa using hk),
        List.filter_cons_of_pos (by simpa using hk), ih]

theorem erase_insert {m : Fields α} {key : String} (h : get? m key = none) (v : α) :
    erase (insert m key v) key = m := by
  rw [erase_insert_self, erase_of_get?_none h]

@[simp] theorem contains_eq_true_iff (m : Fields α) (key : String) :
    contains m key = true ↔ ∃ v, get? m key = some v := by
  simp [contains, Option.isSome_iff_exists]

end Fields

end Manifest
