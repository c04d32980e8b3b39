import Manifest.Proofs.Content
import Manifest.Proofs.Operations
import Manifest.Proofs.Sameness
import Mathlib.Data.List.InsertIdx

/-!
# Undoing operations

A removal undoes an addition at the same place, unless the addition wrote over a member of a record:
an element that was inserted is erased again, and a new member stood behind the others
(`dropChild_of_addTo`).  Where a child was removed another one can be added
(`exists_addTo_dropChild`), so an addition of the value removed undoes a removal.  A member has then
moved behind the others, and the container has its content again but perhaps not its order.  Only
the member in the place of a prototype does not come back, since a record without it adopts what is
assigned there.

Both are facts about one container; `same_putAt_iff` carries them to the whole document.  The main
statement is `add_remove_inverse`.
-/

namespace Manifest

namespace Value

/-! ### Content below a place -/

theorem same_of_perm {kind : RecordKind} {members others : Fields Value}
    (ho : (record kind others).IsData) (h : members.Perm others) :
    (record kind members).same (record kind others) = true := by
  obtain ⟨hk, hd, hdata⟩ := isData_record.mp ho
  refine (same_record_iff hk).mpr ⟨rfl, h.length_eq, fun e he => ?_⟩
  have hmem : e ∈ others := h.mem_iff.mp he
  exact ⟨e.2, Fields.get?_of_mem hd hmem, (hdata e hmem).same_self⟩

theorem same_putChild_iff {v child new : Value} {segment : String} (hv : v.IsData)
    (hc : v.child? segment = some child) :
    (v.putChild segment new).same v = true ↔ new.same child = true := by
  rcases container_of_child? hc with ⟨items, n, rfl, hn, hi⟩ | ⟨kind, members, rfl, -, hm⟩
  · obtain ⟨hlt, hchild⟩ := List.getElem?_eq_some_iff.mp hi
    have hput : (array items).putChild segment new = array (items.set n new) := by
      simp only [putChild, hn]
    rw [hput, same_array_iff, List.forall₂_iff_get]
    constructor
    · rintro ⟨-, h⟩
      have hat := h n (by rwa [List.length_set]) hlt
      rwa [List.get_eq_getElem, List.get_eq_getElem, List.getElem_set_self, hchild] at hat
    · refine fun hs => ⟨List.length_set, fun i hi₁ hi₂ => ?_⟩
      rw [List.get_eq_getElem, List.get_eq_getElem, List.getElem_set]
      split
      · next hni =>
        subst hni
        rwa [hchild]
      · exact (isData_array.mp hv _ (List.getElem_mem hi₂)).same_self
  · obtain ⟨hk, hd, hdata⟩ := isData_record.mp hv
    show (record kind (Fields.insert members segment new)).same (record kind members) = true ↔ _
    rw [same_record_iff hk]
    constructor
    · rintro ⟨-, -, h⟩
      obtain ⟨w, hw, hs⟩ :=
        h (segment, new) (Fields.mem_of_get? (Fields.get?_insert_self members segment new))
      rw [hm, Option.some.injEq] at hw
      rwa [hw]
    · refine fun hs => ⟨rfl, Fields.length_insert_of_get? hm new, fun e he => ?_⟩
      rcases Fields.mem_insert he with rfl | he
      · exact ⟨child, hm, hs⟩
      · exact ⟨e.2, Fields.get?_of_mem hd he, (hdata e he).same_self⟩

/-- **Data in which something is replaced has its content exactly if that has.** -/
theorem same_putAt_iff {v old new : Value} {path : Path} (hv : v.IsData)
    (h : v.at? path = some old) : (v.putAt path new).same v = true ↔ new.same old = true := by
  induction path generalizing v with
  | nil =>
    obtain rfl : v = old := by simpa using h
    rw [putAt_nil]
  | cons segment rest ih =>
    obtain ⟨child, hc, hr⟩ := at?_cons_eq_some_iff.mp h
    rw [putAt_cons hc, same_putChild_iff hv hc, ih (isData_of_child? hv hc) hr]

/-! ### One container -/

section Container
variable {container new value child : Value} {path : Path} {segment : String}

/-- **What was added to a container is removed again**, unless it replaced a member. -/
theorem dropChild_of_addTo (h : Patch.addTo container path segment value = .ok new)
    (hm : container.member? segment = none) (hc : new.child? segment = some child) :
    new.dropChild segment = container := by
  rcases Patch.addTo_cases h with ⟨items, rfl, hs, rfl⟩ | ⟨items, n, rfl, hs, -, rfl⟩ |
    ⟨kind, members, rfl, rfl⟩
  · -- what is behind the last element has no name
    simp [child?, hs] at hc
  · simp only [dropChild, hs, List.eraseIdx_insertIdx_self]
  · have hnone : Fields.get? members segment = none := hm
    cases ha : (record kind members).adopts segment with
    | true =>
      rw [child?_assign_of_adopts ha] at hc
      cases hc
    | false =>
      rw [assign_of_not_adopts ha]
      simp only [dropChild, Fields.erase_insert hnone]

/-- A record that has lost the member in the place of its prototype adopts what is assigned there,
and stays a member short. -/
theorem not_same_assign_erase {kind : RecordKind} {members : Fields Value} {old : Value}
    (ht : kind.takesPrototype = true) (hk : kind.comparedByContent = false)
    (hd : Fields.Distinct members) (hm : Fields.get? members prototypeKey = some old)
    (value : Value) :
    (assign kind (Fields.erase members prototypeKey) prototypeKey value).same
      ((record kind members).putChild prototypeKey value) = false := by
  have hnone := Fields.get?_erase_self members prototypeKey
  have ha : (record kind (Fields.erase members prototypeKey)).adopts prototypeKey = true :=
    adopts_record_iff.mpr ⟨rfl, ht, hnone⟩
  have hshort : (Fields.erase members prototypeKey).length + 1 = members.length := by
    have hperm := (Fields.insert_erase_perm hd hm).length_eq
    rwa [Fields.insert_of_get?_none old hnone, List.length_append] at hperm
  have hk' : (value.heirKind?.getD kind).comparedByContent = false := by
    cases hh : value.heirKind? with
    | none => exact hk
    | some other => exact comparedByContent_of_heirKind? hh
  rw [assign_of_adopts ha, Bool.eq_false_iff]
  intro hs
  have hlength := ((same_record_iff hk').mp hs).2.1
  rw [Fields.length_insert_of_get? hm] at hlength
  omega

/-- **Where a child was removed another one can be added**, and then the container has the content
that it has with the child replaced, unless the child was the member in the place of a prototype. -/
theorem exists_addTo_dropChild (hd : container.isDocument = true) (hv : value.isDocument = true)
    (hc : container.child? segment = some child) (path : Path) :
    ∃ new, Patch.addTo (container.dropChild segment) path segment value = .ok new ∧
      (new.same (container.putChild segment value) = true ↔ segment ≠ prototypeKey) := by
  have hput : (container.putChild segment value).IsData :=
    isData_putChild (isData_of_isDocument hd) hc (isData_of_isDocument hv)
  rcases container_of_child? hc with ⟨items, n, rfl, hs, hn⟩ | ⟨kind, members, rfl, -, hm⟩
  · have hlt : n < items.length := (List.getElem?_eq_some_iff.mp hn).1
    have hle : n ≤ (items.eraseIdx n).length := by
      rw [List.length_eraseIdx_of_lt hlt]
      omega
    have hset : (items.eraseIdx n).insertIdx n value = items.set n value :=
      List.insertIdx_eraseIdx_self (Nat.ne_of_lt hlt) value
    have hadd : Patch.addTo ((array items).dropChild segment) path segment value =
        .ok ((array items).putChild segment value) := by
      simp only [dropChild, putChild, hs, Patch.addTo, if_neg (Nat.not_lt.mpr hle), hset]
    have hne : segment ≠ prototypeKey := by
      rintro rfl
      cases hs
    exact ⟨_, hadd, iff_of_true hput.same_self hne⟩
  · obtain ⟨rfl, hdist, -⟩ := isDocument_record.mp hd
    refine ⟨_, rfl, ?_⟩
    by_cases hne : segment = prototypeKey
    · subst hne
      rw [not_same_assign_erase rfl rfl hdist hm]
      simp
    · have hperm := Fields.insert_erase_perm (Fields.distinct_insert hdist segment value)
        (Fields.get?_insert_self members segment value)
      rw [Fields.erase_insert_self] at hperm
      rw [assign_of_not_adopts (not_adopts_of_ne _ hne)]
      exact iff_of_true (same_of_perm hput hperm) hne

end Container

/-- A record of the document has a member at the place. -/
def HasMember (root : Value) (path : Path) : Prop :=
  ∃ p key container value, path = p ++ [key] ∧ root.at? p = some container ∧
    container.member? key = some value

theorem hasMember_concat {root : Value} {p : Path} {key : String} :
    root.HasMember (p ++ [key]) ↔
      ∃ container value, root.at? p = some container ∧ container.member? key = some value := by
  constructor
  · rintro ⟨q, k, container, value, he, hq, hm⟩
    obtain ⟨rfl, rfl⟩ := List.append_singleton_inj.mp he
    exact ⟨container, value, hq, hm⟩
  · rintro ⟨container, value, hp, hm⟩
    exact ⟨p, key, container, value, rfl, hp, hm⟩

end Value

namespace Operation

open Value Patch

variable {target value left : Value} {pointer : String}

theorem eq_of_add_remove (hm : ¬ target.HasMember (Path.ofPointer pointer))
    (h : applyAll [add pointer value, remove pointer] target = (.ok (), left)) : left = target := by
  obtain ⟨middle, hadd, hrest⟩ := applyAll_cons_eq_ok_iff.mp h
  have hremove := applyAll_singleton_eq_ok_iff.mp hrest
  obtain ⟨p, segment, hread⟩ := exists_concat_of_apply rfl hadd
  have hp : Path.ofPointer pointer = p ++ [segment] := hread
  obtain ⟨container, new, ha, hnew, rfl⟩ := (apply_add_eq_ok_iff hp).mp hadd
  obtain ⟨found, child, hf, hc, -, rfl⟩ := (apply_remove_eq_ok_iff hp).mp hremove
  obtain rfl : new = found := by
    rw [at?_putAt ha, Option.some.injEq] at hf
    exact hf
  have hnone : container.member? segment = none := by
    refine Option.eq_none_iff_forall_ne_some.mpr fun old ho => hm ?_
    rw [hp]
    exact hasMember_concat.mpr ⟨container, old, ha, ho⟩
  rw [putAt_putAt ha, dropChild_of_addTo hnew hnone hc, putAt_of_at? ha]

/-- An addition behind a removal, of the value removed, leaves a document of the same content, unless
the value was the member in the place of a prototype. -/
theorem exists_add_of_remove (ht : target.isDocument = true)
    (h : (remove pointer).apply target = (.ok (), left)) :
    ∃ value, removeValue target "remove" (Path.ofPointer pointer) = (.ok value, left) ∧
      target.get (Path.ofPointer pointer) = .ok value ∧
      ∃ again, (add pointer value).apply left = (.ok (), again) ∧
        (again.same target = true ↔ (Path.ofPointer pointer).getLast? ≠ some prototypeKey) := by
  obtain ⟨p, segment, hread⟩ := exists_concat_of_apply rfl h
  have hp : Path.ofPointer pointer = p ++ [segment] := hread
  obtain ⟨container, value, ha, hc, hv, rfl⟩ := (apply_remove_eq_ok_iff hp).mp h
  have hd : container.isDocument = true := isDocument_of_at? ht ha
  obtain ⟨new, hadd, hsame⟩ :=
    exists_addTo_dropChild hd (isDocument_of_child? hd hc) hc (p ++ [segment])
  rw [putChild_of_child? hc] at hsame
  have hget : target.get (p ++ [segment]) = .ok value :=
    get_of_at? (at?_concat_eq_some_iff.mpr ⟨container, ha, hc⟩)
  refine ⟨value, ?_, ?_, target.putAt p new, ?_, ?_⟩
  · rw [hp]
    exact removeValue_concat ha hc hv
  · rw [hp]
    exact hget
  · refine (apply_add_eq_ok_iff hp).mpr ⟨_, new, at?_putAt ha _, hadd, ?_⟩
    rw [putAt_putAt ha]
  · rw [same_putAt_iff (isData_of_isDocument ht) ha, hsame, hp, List.getLast?_concat, ne_eq, ne_eq,
      Option.some.injEq]

/-- **Additions and removals undo each other.**  A removal at the place of an addition leaves the
document as it was, if the addition did not write over a member of a record.  After a removal the
value removed can be added again, and then the document has the content that it had, unless the value
was the member in the place of a prototype: that does not come back. -/
theorem add_remove_inverse (ht : target.isDocument = true) (pointer : String) :
    (∀ value left, ¬ target.HasMember (Path.ofPointer pointer) →
      applyAll [add pointer value, remove pointer] target = (.ok (), left) →
        left = target ∧ left.same target = true) ∧
    ∀ left, (remove pointer).apply target = (.ok (), left) →
      ∃ value, removeValue target "remove" (Path.ofPointer pointer) = (.ok value, left) ∧
        target.get (Path.ofPointer pointer) = .ok value ∧
        ∃ again, (add pointer value).apply left = (.ok (), again) ∧
          (again.same target = true ↔ (Path.ofPointer pointer).getLast? ≠ some prototypeKey) := by
  refine ⟨fun value left hm h => ?_, fun left h => exists_add_of_remove ht h⟩
  obtain rfl : left = target := eq_of_add_remove hm h
  exact ⟨rfl, same_refl ht⟩

/-- An element that is inserted is removed again; a member that is removed comes back behind the
others. -/
theorem add_remove_inverse_of_nested :
    let target := object [("a", array [object [("b", string "x"), ("c", string "y")], string "z"])]
    let left := object [("a", array [object [("c", string "y")], string "z"])]
    let again := object [("a", array [object [("c", string "y"), ("b", string "x")], string "z"])]
    target.isDocument = true ∧ ¬ target.HasMember (Path.ofPointer "/a/1") ∧
      applyAll [add "/a/1" (string "w"), remove "/a/1"] target = (.ok (), target) ∧
      (remove "/a/0/b").apply target = (.ok (), left) ∧
      (add "/a/0/b" (string "x")).apply left = (.ok (), again) ∧ again.same target = true := by
  intro target left again
  have ht : target.isDocument = true := by rfl
  have hm : ¬ target.HasMember (Path.ofPointer "/a/1") := by
    have hp : Path.ofPointer "/a/1" = ["a"] ++ ["1"] := by decide +kernel
    rw [hp, hasMember_concat]
    rintro ⟨container, value, ha, hv⟩
    cases ha
    cases hv
  have hpair : applyAll [add "/a/1" (string "w"), remove "/a/1"] target = (.ok (), target) := by
    have hok : (applyAll [add "/a/1" (string "w"), remove "/a/1"] target).1 = .ok () := by rfl
    have hback := (add_remove_inverse ht "/a/1").1 (string "w") _ hm (Prod.ext hok rfl)
    exact Prod.ext hok hback.1
  have hremove : (remove "/a/0/b").apply target = (.ok (), left) := by rfl
  have hadd : (add "/a/0/b" (string "x")).apply left = (.ok (), again) := by rfl
  obtain ⟨value, -, hget, back, hback, hsame⟩ := (add_remove_inverse ht "/a/0/b").2 left hremove
  obtain rfl : string "x" = value := by
    have hx : target.get (Path.ofPointer "/a/0/b") = .ok (string "x") := by rfl
    rw [hx, Except.ok.injEq] at hget
    exact hget
  obtain rfl : again = back := (Prod.mk.inj (hadd.symm.trans hback)).2
  exact ⟨ht, hm, hpair, hremove, hadd, hsame.mpr (by decide +kernel)⟩

/-- The text that stood in the place of a prototype is removed, and what is assigned there again is
lost. -/
theorem removed_prototype_not_added :
    let target := object [("__proto__", string "x"), ("a", null)]
    target.isDocument = true ∧ (remove "/__proto__").apply target = (.ok (), object [("a", null)]) ∧
      removeValue target "remove" (Path.ofPointer "/__proto__") =
        (.ok (string "x"), object [("a", null)]) ∧
      (add "/__proto__" (string "x")).apply (object [("a", null)]) =
        (.ok (), object [("a", null)]) ∧
      (object [("a", null)]).same target = false :=
  ⟨rfl, rfl, rfl, rfl, by decide +kernel⟩

end Operation

end Manifest
