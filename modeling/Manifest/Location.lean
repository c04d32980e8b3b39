import Manifest.Path
import Manifest.Value

/-!
# Locations

A path without `-` names at most one place of a document.  `Value.at?` looks such a place up and
`Value.putAt` replaces what stands there; both stop where a segment does not fit the node it meets.
-/

namespace Manifest.Value

/-- The child of a node under a segment: a member under a key, an element under an index. -/
def child? : Value → String → Option Value
  | array items, segment =>
    match Role.ofSegment segment with
    | .index n => items[n]?
    | _ => none
  | record _ members, segment =>
    if (Role.ofSegment segment).ofArray then none else Fields.get? members segment
  | _, _ => none

/-- The value at a path. -/
def at? : Value → Path → Option Value
  | v, [] => some v
  | v, segment :: rest => (v.child? segment).bind fun child => child.at? rest

/-- A node with another value for an existing child. -/
def putChild : Value → String → Value → Value
  | array items, segment, new =>
    match Role.ofSegment segment with
    | .index n => array (items.set n new)
    | _ => array items
  | record kind members, segment, new => record kind (Fields.insert members segment new)
  | v, _, _ => v

/-- A node without an existing child. -/
def dropChild : Value → String → Value
  | array items, segment =>
    match Role.ofSegment segment with
    | .index n => array (items.eraseIdx n)
    | _ => array items
  | record kind members, segment => record kind (Fields.erase members segment)
  | v, _ => v

/-- The document with another value at a path that leads somewhere. -/
def putAt : Value → Path → Value → Value
  | _, [], new => new
  | v, segment :: rest, new =>
    match v.child? segment with
    | none => v
    | some child => v.putChild segment (child.putAt rest new)

@[simp] theorem at?_nil (v : Value) : v.at? [] = some v := by cases v <;> rfl

@[simp] theorem putAt_nil (v new : Value) : v.putAt [] new = new := by cases v <;> rfl

theorem at?_cons (v : Value) (segment : String) (rest : Path) :
    v.at? (segment :: rest) = (v.child? segment).bind fun child => child.at? rest := rfl

theorem putAt_cons {v child : Value} {segment : String} (h : v.child? segment = some child)
    (rest : Path) (new : Value) :
    v.putAt (segment :: rest) new = v.putChild segment (child.putAt rest new) := by
  simp [putAt, h]

theorem child?_putChild {v child : Value} {segment : String} (h : v.child? segment = some child)
    (new : Value) : (v.putChild segment new).child? segment = some new := by
  cases v with
  | array items =>
    simp only [child?, putChild] at h ⊢
    cases hr : Role.ofSegment segment with
    | key => simp [hr] at h
    | any => simp [hr] at h
    | index n =>
      simp only [hr] at h ⊢
      have hn : n < items.length := (List.getElem?_eq_some_iff.mp h).1
      simp [hn]
  | record kind members =>
    by_cases hr : (Role.ofSegment segment).ofArray <;> simp_all [child?, putChild]
  | _ => simp [child?] at h

theorem at?_putAt {v old : Value} {path : Path} (h : v.at? path = some old) (new : Value) :
    (v.putAt path new).at? path = some new := by
  induction path generalizing v with
  | nil => simp
  | cons segment rest ih =>
    rw [at?_cons] at h
    obtain ⟨child, hc, hr⟩ := Option.bind_eq_some_iff.mp h
    rw [putAt_cons hc, at?_cons, child?_putChild hc]
    exact ih hr

end Manifest.Value
