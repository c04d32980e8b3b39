import Manifest.Value

/-!
# Detached copies

A detached copy of a value holds what the value holds and is tied to no class: at every depth, its
records are ordinary ones with the same members.  A record with content of its own is copied by that
content, which needs its class and leaves its members behind.

Nothing changes in a document that a text can hold (`detached_of_isDocument`).
-/

namespace Manifest

/-- The kind of the detached copy of a record. -/
def RecordKind.detached (kind : RecordKind) : RecordKind :=
  if kind.holdsContent then kind else .plain

namespace Value

mutual

/-- The detached copy of a value. -/
def detached : Value → Value
  | array items => array (detachedItems items)
  | record kind members =>
    record kind.detached (if kind.holdsContent then [] else detachedMembers members)
  | v => v

/-- The detached copies of elements. -/
def detachedItems : List Value → List Value
  | [] => []
  | v :: rest => detached v :: detachedItems rest

/-- The members with detached copies of their values. -/
def detachedMembers : List (String × Value) → List (String × Value)
  | [] => []
  | (key, v) :: rest => (key, detached v) :: detachedMembers rest

end

mutual

theorem detached_of_isDocument : ∀ {v : Value}, v.isDocument = true → v.detached = v
  | absent, h => by simp [isDocument] at h
  | vacant, h => by simp [isDocument] at h
  | null, _ => rfl
  | bool _, _ => rfl
  | number _, _ => rfl
  | string _, _ => rfl
  | array items, h => by
    simp only [isDocument] at h
    simp [detached, detachedItems_of_areDocuments h]
  | record .plain members, h => by
    simp only [isDocument, Bool.and_eq_true] at h
    simp [detached, RecordKind.detached, RecordKind.holdsContent,
      detachedMembers_of_areDocuments h.2]
  | record .bare _, h => by simp [isDocument] at h
  | record (.instanceOf _) _, h => by simp [isDocument] at h
  | foreign _, h => by simp [isDocument] at h

theorem detachedItems_of_areDocuments :
    ∀ {items : List Value}, areDocuments items = true → detachedItems items = items
  | [], _ => rfl
  | _ :: _, h => by
    simp only [areDocuments, Bool.and_eq_true] at h
    simp [detachedItems, detached_of_isDocument h.1, detachedItems_of_areDocuments h.2]

theorem detachedMembers_of_areDocuments :
    ∀ {members : List (String × Value)},
      membersAreDocuments members = true → detachedMembers members = members
  | [], _ => rfl
  | (_, _) :: _, h => by
    simp only [membersAreDocuments, Bool.and_eq_true] at h
    simp [detachedMembers, detached_of_isDocument h.1, detachedMembers_of_areDocuments h.2]

end

end Value

end Manifest
