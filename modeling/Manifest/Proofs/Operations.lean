import Manifest.Proofs.Patch

/-!
# Operations that succeed

An operation that changes a document does so below one container, that of the last segment of its
pointer.  An addition succeeds exactly if the container takes the value (`apply_add_eq_ok_iff`); a
removal succeeds exactly if something stands there (`apply_remove_eq_ok_iff`).  Both leave the
document with what they make of the container in its place.
-/

namespace Manifest

open Value

namespace Patch

variable {target container value new left : Value} {path p : Path} {segment : String}

/-- What a container can take: an array an element at its end or in front of one of its elements, a
record an assignment under any key. -/
theorem addTo_cases (h : addTo container path segment value = .ok new) :
    (∃ items, container = array items ∧ Role.ofSegment segment = .any ∧
      new = array (items ++ [value])) ∨
    (∃ items n, container = array items ∧ Role.ofSegment segment = .index n ∧ n ≤ items.length ∧
      new = array (items.insertIdx n value)) ∨
    ∃ kind members, container = record kind members ∧
      new = assign kind members segment value := by
  unfold addTo at h
  cases container with
  | array items =>
    cases hs : Role.ofSegment segment with
    | any =>
      simp only [hs, Except.ok.injEq] at h
      exact Or.inl ⟨items, rfl, rfl, h.symm⟩
    | index n =>
      simp only [hs] at h
      split at h
      · cases h
      · next hn =>
        simp only [Except.ok.injEq] at h
        exact Or.inr (Or.inl ⟨items, n, rfl, rfl, Nat.not_lt.mp hn, h.symm⟩)
    | key =>
      simp only [hs] at h
      cases h
  | record kind members =>
    simp only [Except.ok.injEq] at h
    exact Or.inr (Or.inr ⟨kind, members, rfl, h.symm⟩)
  | _ => cases h

theorem present?_of_addTo (h : addTo container path segment value = .ok new) :
    container.present? = some container := by
  rcases addTo_cases h with ⟨items, rfl, -⟩ | ⟨items, n, rfl, -⟩ | ⟨kind, members, rfl, -⟩ <;> rfl

theorem orKeep_eq_ok_iff {change : Except Fault Value} :
    orKeep target change = (.ok (), left) ↔ change = .ok left := by
  cases change <;> simp [orKeep]

theorem addValue_concat (hp : target.at? p = some container)
    (hc : container.present? = some container) (segment : String) (value : Value) :
    addValue target (p ++ [segment]) value =
      (addTo container (p ++ [segment]) segment value).map (target.putAt p) := by
  have hl : locate target "add" p = .ok container := locate_eq_ok_iff.mpr ⟨hp, hc⟩
  simp only [addValue, List.dropLast_concat, hl, List.getLast?_concat, Option.getD_some]

theorem addValue_eq_ok_iff :
    addValue target (p ++ [segment]) value = .ok left ↔
      ∃ container new, target.at? p = some container ∧
        addTo container (p ++ [segment]) segment value = .ok new ∧ left = target.putAt p new := by
  constructor
  · intro h
    cases hl : locate target "add" p with
    | error fault =>
      simp only [addValue, List.dropLast_concat, hl] at h
      cases h
    | ok container =>
      obtain ⟨hp, hc⟩ := locate_eq_ok_iff.mp hl
      rw [addValue_concat hp hc] at h
      cases ha : addTo container (p ++ [segment]) segment value with
      | error fault =>
        rw [ha] at h
        cases h
      | ok new =>
        rw [ha] at h
        cases h
        exact ⟨container, new, hp, ha, rfl⟩
  · rintro ⟨container, new, hp, ha, rfl⟩
    rw [addValue_concat hp (present?_of_addTo ha), ha]
    rfl

theorem removeValue_concat {operation : String} (hp : target.at? p = some container)
    (hc : container.child? segment = some value) (hv : value.present? = some value) :
    removeValue target operation (p ++ [segment]) =
      (.ok value, target.putAt p (container.dropChild segment)) := by
  have hl : locate target operation (p ++ [segment]) = .ok value :=
    locate_eq_ok_iff.mpr ⟨at?_concat_eq_some_iff.mpr ⟨container, hp, hc⟩, hv⟩
  rw [removeValue_of_locate target value operation _ hl, erase_concat hp hc]

theorem removeValue_eq_ok_iff {operation : String} :
    removeValue target operation (p ++ [segment]) = (.ok value, left) ↔
      ∃ container, target.at? p = some container ∧ container.child? segment = some value ∧
        value.present? = some value ∧ left = target.putAt p (container.dropChild segment) := by
  constructor
  · intro h
    cases hl : locate target operation (p ++ [segment]) with
    | error fault =>
      rw [removeValue_of_locate_error target operation _ hl] at h
      cases h
    | ok found =>
      obtain ⟨ha, hv⟩ := locate_eq_ok_iff.mp hl
      obtain ⟨container, hp, hc⟩ := at?_concat_eq_some_iff.mp ha
      rw [removeValue_concat hp hc hv] at h
      cases h
      exact ⟨container, hp, hc, hv, rfl⟩
  · rintro ⟨container, hp, hc, hv, rfl⟩
    exact removeValue_concat hp hc hv

theorem replaceValue_concat (hp : target.at? p = some container)
    (hc : container.child? segment = some new) (hn : new.present? = some new)
    (hv : value.present? = some value) :
    replaceValue target (p ++ [segment]) value =
      (.ok (), target.putAt (p ++ [segment]) value) := by
  have hl : locate target "replace" (p ++ [segment]) = .ok new :=
    locate_eq_ok_iff.mpr ⟨at?_concat_eq_some_iff.mpr ⟨container, hp, hc⟩, hn⟩
  obtain ⟨hr, hleft⟩ := Visitor.run_writing_child 0 hp value hc
  rw [hv, Option.elim_some] at hleft
  have hput : target.putAt (p ++ [segment]) value =
      target.putAt p (container.putChild segment value) := by
    rw [putAt_append_of_at? hp, putAt_cons hc, putAt_nil]
  simp only [replaceValue, hl, hr, hleft, hput]
  rfl

end Patch

namespace Operation

open Patch

variable {target value left : Value} {pointer : String} {p : Path} {segment : String}

theorem apply_add (h : Path.ofPointer pointer = p ++ [segment]) (target value : Value) :
    (add pointer value).apply target = orKeep target (addValue target (p ++ [segment]) value) := by
  simp [apply, Operation.path, h, applyAt]

/-- **An addition succeeds exactly if the container above its place takes the value.** -/
theorem apply_add_eq_ok_iff (h : Path.ofPointer pointer = p ++ [segment]) :
    (add pointer value).apply target = (.ok (), left) ↔
      ∃ container new, target.at? p = some container ∧
        addTo container (p ++ [segment]) segment value = .ok new ∧ left = target.putAt p new := by
  rw [apply_add h, orKeep_eq_ok_iff, addValue_eq_ok_iff]

/-- **A removal succeeds exactly if a value of its own stands at its place.** -/
theorem apply_remove_eq_ok_iff (h : Path.ofPointer pointer = p ++ [segment]) :
    (remove pointer).apply target = (.ok (), left) ↔
      ∃ container value, target.at? p = some container ∧ container.child? segment = some value ∧
        value.present? = some value ∧ left = target.putAt p (container.dropChild segment) := by
  have happly : (remove pointer).apply target =
      ((removeValue target "remove" (p ++ [segment])).1.map fun _ => (),
        (removeValue target "remove" (p ++ [segment])).2) := by
    simp [apply, Operation.path, h, applyAt]
  have hok : (remove pointer).apply target = (.ok (), left) ↔
      ∃ value, removeValue target "remove" (p ++ [segment]) = (.ok value, left) := by
    rw [happly]
    cases removeValue target "remove" (p ++ [segment]) with
    | mk result after => cases result <;> simp [Except.map]
  rw [hok, exists_comm]
  exact exists_congr fun value => removeValue_eq_ok_iff

/-- **A replacement succeeds exactly if a value of its own stands at its place.** -/
theorem apply_replace_eq_ok_iff (h : Path.ofPointer pointer = p ++ [segment])
    (hv : value.present? = some value) :
    (replace pointer value).apply target = (.ok (), left) ↔
      ∃ old, target.at? (p ++ [segment]) = some old ∧ old.present? = some old ∧
        left = target.putAt (p ++ [segment]) value := by
  have happly : (replace pointer value).apply target =
      replaceValue target (p ++ [segment]) value := by
    simp [apply, Operation.path, h, applyAt]
  rw [happly]
  constructor
  · intro hok
    cases hl : locate target "replace" (p ++ [segment]) with
    | error fault =>
      simp only [replaceValue, hl, Prod.mk.injEq] at hok
      cases hok.1
    | ok old =>
      obtain ⟨ha, ho⟩ := locate_eq_ok_iff.mp hl
      obtain ⟨container, hp, hc⟩ := at?_concat_eq_some_iff.mp ha
      rw [replaceValue_concat hp hc ho hv] at hok
      cases hok
      exact ⟨old, ha, ho, rfl⟩
  · rintro ⟨old, ha, ho, rfl⟩
    obtain ⟨container, hp, hc⟩ := at?_concat_eq_some_iff.mp ha
    exact replaceValue_concat hp hc ho hv

/-- **A test succeeds exactly if a value of the same content stands at its place**, and changes
nothing. -/
theorem apply_test_eq_ok_iff :
    (test pointer value).apply target = (.ok (), left) ↔
      ∃ found, target.at? (Path.ofPointer pointer) = some found ∧
        found.present? = some found ∧ found.same value = true ∧ left = target := by
  have happly : (test pointer value).apply target =
      applyAt target (Path.ofPointer pointer) (test pointer value) := by
    simp [apply, Operation.path, isTest]
  rw [happly, applyAt]
  constructor
  · intro hok
    cases hl : locate target "test" (Path.ofPointer pointer) with
    | error fault =>
      rw [hl] at hok
      cases hok
    | ok found =>
      obtain ⟨ha, hf⟩ := locate_eq_ok_iff.mp hl
      simp only [hl] at hok
      split at hok
      · next hs =>
        cases hok
        exact ⟨found, ha, hf, hs, rfl⟩
      · cases hok
  · rintro ⟨found, ha, hf, hs, rfl⟩
    simp only [locate_eq_ok_iff.mpr ⟨ha, hf⟩, hs, if_true]

theorem applyAll_cons_eq_ok_iff {op : Operation} {rest : List Operation} :
    applyAll (op :: rest) target = (.ok (), left) ↔
      ∃ middle, op.apply target = (.ok (), middle) ∧ applyAll rest middle = (.ok (), left) := by
  rw [applyAll]
  cases op.apply target with
  | mk result middle => cases result <;> simp

theorem applyAll_singleton_eq_ok_iff {op : Operation} :
    applyAll [op] target = (.ok (), left) ↔ op.apply target = (.ok (), left) := by
  rw [applyAll_cons_eq_ok_iff]
  simp [applyAll]

theorem exists_concat_of_apply {op : Operation} (ht : op.isTest = false)
    (h : op.apply target = (.ok (), left)) :
    ∃ p segment, Path.ofPointer op.path = p ++ [segment] := by
  rcases List.eq_nil_or_concat' (Path.ofPointer op.path) with hp | hp
  · simp [apply, hp, ht] at h
  · exact hp

end Operation

end Manifest
