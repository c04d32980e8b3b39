import Manifest.Proofs.Undoing

/-!
# Operations one after the other

What an operation does is told by others that follow each other at one place.

* A replacement goes through exactly if the removal of its place and an addition there do.  All of
  them leave the same content, except in the place of a prototype: a member there is replaced, but
  one that was removed does not come back (`apply_replace_iff_remove_add`).
* What was added is seen by a test exactly if its segment addresses something in the container, an
  index of an array or a key of a record, and the container has not taken it for its prototype
  (`apply_test_of_add_iff`).  A record takes a value under any segment, so it can be given members
  that no operation reaches, as in `added_member_out_of_reach`.
* A move is a removal and an addition of what was removed.  An addition goes to what stands at each
  place on its way (`addValue_append_eq_ok_iff`), so a move below its own source finds what the
  removal left there: the document itself if the source is the root, the next element if it is an
  element of an array, and nothing if it is a member of a record (`apply_move_below_source_iff`).
-/

namespace Manifest

open Value

theorem Value.child?_dropChild_eq_some_iff {v child next : Value} {segment : String}
    (hc : v.child? segment = some child) :
    (v.dropChild segment).child? segment = some next ↔
      ∃ items n, v = array items ∧ Role.ofSegment segment = .index n ∧
        items[n + 1]? = some next := by
  rcases container_of_child? hc with ⟨items, n, rfl, hs, -⟩ | ⟨kind, members, rfl, hk, -⟩
  · have hdrop : ((array items).dropChild segment).child? segment = items[n + 1]? := by
      simp [dropChild, child?, hs, List.getElem?_eraseIdx]
    rw [hdrop]
    constructor
    · intro hn
      exact ⟨items, n, rfl, hs, hn⟩
    · rintro ⟨_, _, ⟨⟩, hs', hn⟩
      rw [hs, Role.index.injEq] at hs'
      rwa [hs']
  · have hdrop : ((record kind members).dropChild segment).child? segment = none := by
      simp [dropChild, child?_record_of_key hk]
    rw [hdrop]
    constructor
    · rintro ⟨⟩
    · rintro ⟨_, _, ⟨⟩, -⟩

namespace Patch

variable {target value left container new : Value} {p rest : Path} {segment : String}

theorem addTo_of_path {path : Path} (h : addTo container path segment value = .ok new)
    (other : Path) : addTo container other segment value = .ok new := by
  rcases addTo_cases h with ⟨items, rfl, hs, rfl⟩ | ⟨items, n, rfl, hs, hle, rfl⟩ |
    ⟨kind, members, rfl, rfl⟩
  · simp only [addTo, hs]
  · simp only [addTo, hs, if_neg (Nat.not_lt.mpr hle)]
  · rfl

/-- **An addition is made to what stands on the way to its place.** -/
theorem addValue_append_eq_ok_iff (hr : rest ≠ []) :
    addValue target (p ++ rest) value = .ok left ↔
      ∃ inner new, target.at? p = some inner ∧ addValue inner rest value = .ok new ∧
        left = target.putAt p new := by
  obtain ⟨q, segment, rfl⟩ := (List.eq_nil_or_concat' rest).resolve_left hr
  rw [← List.append_assoc, addValue_eq_ok_iff]
  constructor
  · rintro ⟨container, new, ha, hadd, rfl⟩
    rw [at?_append, Option.bind_eq_some_iff] at ha
    obtain ⟨inner, hp, hq⟩ := ha
    refine ⟨inner, inner.putAt q new, hp, ?_, putAt_append_of_at? hp q new⟩
    exact addValue_eq_ok_iff.mpr ⟨container, new, hq, addTo_of_path hadd _, rfl⟩
  · rintro ⟨inner, _, hp, hinner, rfl⟩
    obtain ⟨container, new, hq, hadd, rfl⟩ := addValue_eq_ok_iff.mp hinner
    refine ⟨container, new, ?_, addTo_of_path hadd _, (putAt_append_of_at? hp q new).symm⟩
    rw [at?_append_of_at? hp, hq]

/-- What was added to a container is found under the segment if that addresses something there, and
if the container has not taken it for its prototype. -/
theorem child?_of_addTo_eq_some_iff {path : Path} {child : Value}
    (h : addTo container path segment value = .ok new) :
    new.child? segment = some child ↔
      child = value ∧ container.Fits segment ∧ segment ≠ traversal ∧
        container.adopts segment = false := by
  rcases addTo_cases h with ⟨items, rfl, hs, rfl⟩ | ⟨items, n, rfl, hs, hle, rfl⟩ |
    ⟨kind, members, rfl, rfl⟩
  · obtain rfl := Role.ofSegment_eq_any_iff.mp hs
    simp
  · have hne : segment ≠ traversal := by
      rintro rfl
      cases hs
    have hf : (array items).Fits segment := Or.inl ⟨items, rfl, by simp [hs]⟩
    rw [child?_array_of_index hs, List.getElem?_insertIdx_self, if_pos hle, Option.some.injEq,
      eq_comm]
    exact ⟨fun hc => ⟨hc, hf, hne, rfl⟩, And.left⟩
  · cases ha : (record kind members).adopts segment with
    | true =>
      rw [child?_assign_of_adopts ha]
      simp
    | false =>
      have hf : (record kind members).Fits segment ↔ Role.ofSegment segment = .key := by
        simp [Fits]
      rw [assign_of_not_adopts ha, hf]
      by_cases hk : Role.ofSegment segment = .key
      · rw [child?_record_of_key hk, Fields.get?_insert_self, Option.some.injEq, eq_comm]
        exact ⟨fun hc => ⟨hc, hk, Role.ne_traversal_of_key hk, rfl⟩, And.left⟩
      · simp [child?, Role.ofArray, hk]

end Patch

namespace Operation

open Patch

variable {target value left : Value} {pointer source : String} {rest : Path}

/-! ### Replacements -/

/-- What can be replaced can be removed and added anew.  It has the same content then, unless it was
the member in the place of a prototype. -/
theorem exists_remove_add_of_replace (ht : target.isDocument = true)
    (hv : value.isDocument = true) (h : (replace pointer value).apply target = (.ok (), left)) :
    ∃ left', applyAll [remove pointer, add pointer value] target = (.ok (), left') ∧
      (left'.same left = true ↔ (Path.ofPointer pointer).getLast? ≠ some prototypeKey) := by
  obtain ⟨p, segment, hread⟩ := exists_concat_of_apply rfl h
  have hp : Path.ofPointer pointer = p ++ [segment] := hread
  obtain ⟨old, hat, hold, rfl⟩ := (apply_replace_eq_ok_iff hp (present?_of_isDocument hv)).mp h
  obtain ⟨container, ha, hc⟩ := at?_concat_eq_some_iff.mp hat
  obtain ⟨new, hadd, hsame⟩ := exists_addTo_dropChild (isDocument_of_at? ht ha) hv hc (p ++ [segment])
  have hput : target.putAt (p ++ [segment]) value =
      target.putAt p (container.putChild segment value) := by
    rw [putAt_append_of_at? ha, putAt_cons hc, putAt_nil]
  have hdata : (target.putAt (p ++ [segment]) value).IsData :=
    isData_putAt (isData_of_isDocument ht) (isData_of_isDocument hv) _
  rw [hput] at hdata ⊢
  refine ⟨target.putAt p new, applyAll_cons_eq_ok_iff.mpr
    ⟨_, (apply_remove_eq_ok_iff hp).mpr ⟨container, old, ha, hc, hold, rfl⟩,
      applyAll_singleton_eq_ok_iff.mpr ((apply_add_eq_ok_iff hp).mpr
        ⟨_, new, at?_putAt ha _, hadd, (putAt_putAt ha _ _).symm⟩)⟩, ?_⟩
  -- the two documents differ in the container alone
  have hcontent : ((target.putAt p (container.putChild segment value)).putAt p new).same
      (target.putAt p (container.putChild segment value)) = true ↔ segment ≠ prototypeKey :=
    (same_putAt_iff hdata (at?_putAt ha _)).trans hsame
  rw [putAt_putAt ha] at hcontent
  rw [hcontent, hp, List.getLast?_concat, ne_eq, ne_eq, Option.some.injEq]

theorem exists_replace_of_remove (hv : value.isDocument = true)
    (h : (remove pointer).apply target = (.ok (), left)) :
    ∃ left', (replace pointer value).apply target = (.ok (), left') := by
  obtain ⟨p, segment, hread⟩ := exists_concat_of_apply rfl h
  have hp : Path.ofPointer pointer = p ++ [segment] := hread
  obtain ⟨container, old, ha, hc, hold, -⟩ := (apply_remove_eq_ok_iff hp).mp h
  exact ⟨_, (apply_replace_eq_ok_iff hp (present?_of_isDocument hv)).mpr
    ⟨old, at?_concat_eq_some_iff.mpr ⟨container, ha, hc⟩, hold, rfl⟩⟩

/-- **To replace is to remove and to add**: the one goes through exactly if the two do.  Then they
leave the same content, except in the place of a prototype. -/
theorem apply_replace_iff_remove_add (ht : target.isDocument = true)
    (hv : value.isDocument = true) (pointer : String) :
    ((∃ left, (replace pointer value).apply target = (.ok (), left)) ↔
        ∃ left, applyAll [remove pointer, add pointer value] target = (.ok (), left)) ∧
      ∀ left left', (replace pointer value).apply target = (.ok (), left) →
        applyAll [remove pointer, add pointer value] target = (.ok (), left') →
          (left'.same left = true ↔ (Path.ofPointer pointer).getLast? ≠ some prototypeKey) := by
  refine ⟨⟨?_, ?_⟩, fun left left' h h' => ?_⟩
  · rintro ⟨left, h⟩
    obtain ⟨left', h', -⟩ := exists_remove_add_of_replace ht hv h
    exact ⟨left', h'⟩
  · rintro ⟨left, h⟩
    obtain ⟨middle, hremove, -⟩ := applyAll_cons_eq_ok_iff.mp h
    exact exists_replace_of_remove hv hremove
  · obtain ⟨_, hpair, hsame⟩ := exists_remove_add_of_replace ht hv h
    rw [hpair] at h'
    cases h'
    exact hsame

/-- A member replaced stays where it is; one that is removed and added goes behind the others. -/
theorem apply_replace_iff_remove_add_of_member :
    let target := object [("a", array [object [("b", string "x"), ("c", null)]])]
    let left := object [("a", array [object [("b", string "y"), ("c", null)]])]
    let left' := object [("a", array [object [("c", null), ("b", string "y")]])]
    target.isDocument = true ∧ (string "y").isDocument = true ∧
      (replace "/a/0/b" (string "y")).apply target = (.ok (), left) ∧
      applyAll [remove "/a/0/b", add "/a/0/b" (string "y")] target = (.ok (), left') ∧
      left'.same left = true := by
  intro target left left'
  have h : (replace "/a/0/b" (string "y")).apply target = (.ok (), left) := by rfl
  have h' : applyAll [remove "/a/0/b", add "/a/0/b" (string "y")] target = (.ok (), left') := by
    rfl
  have hsame := (apply_replace_iff_remove_add rfl rfl "/a/0/b").2 left left' h h'
  exact ⟨rfl, rfl, h, h', hsame.mpr (by decide +kernel)⟩

/-- A member in the place of a prototype is replaced, but once it is removed none can be added. -/
theorem replaced_prototype_not_added :
    let target := object [("__proto__", string "x")]
    let left := object [("__proto__", string "y")]
    target.isDocument = true ∧ (replace "/__proto__" (string "y")).apply target = (.ok (), left) ∧
      applyAll [remove "/__proto__", add "/__proto__" (string "y")] target = (.ok (), object []) ∧
      (object []).same left = false :=
  ⟨rfl, rfl, rfl, by decide +kernel⟩

/-! ### Tests of what was added -/

/-- **What was added is seen by a test exactly if its segment addresses something in the
container**, an index of an array or a key of a record, and the container has not taken it for its
prototype. -/
theorem apply_test_of_add_iff (hv : value.isDocument = true)
    (h : (add pointer value).apply target = (.ok (), left)) :
    ∃ p segment container, Path.ofPointer pointer = p ++ [segment] ∧
      target.at? p = some container ∧
      ((test pointer value).apply left = (.ok (), left) ↔
        container.Fits segment ∧ segment ≠ traversal ∧ container.adopts segment = false) := by
  obtain ⟨p, segment, hread⟩ := exists_concat_of_apply rfl h
  have hp : Path.ofPointer pointer = p ++ [segment] := hread
  obtain ⟨container, new, ha, hadd, rfl⟩ := (apply_add_eq_ok_iff hp).mp h
  refine ⟨p, segment, container, hp, ha, ?_⟩
  have hat : (target.putAt p new).at? (p ++ [segment]) = new.child? segment := by
    rw [at?_append_of_at? (at?_putAt ha new), at?_singleton]
  rw [apply_test_eq_ok_iff, hp, hat]
  constructor
  · rintro ⟨found, hc, -⟩
    exact ((child?_of_addTo_eq_some_iff hadd).mp hc).2
  · intro hf
    exact ⟨value, (child?_of_addTo_eq_some_iff hadd).mpr ⟨rfl, hf⟩, present?_of_isDocument hv,
      same_refl hv, rfl⟩

/-- An index may have leading zeros. -/
theorem apply_test_of_add_iff_of_index :
    let target := object [("a", array [string "x"])]
    let left := object [("a", array [string "y", string "x"])]
    (string "y").isDocument = true ∧
      (add "/a/00" (string "y")).apply target = (.ok (), left) ∧
      (test "/a/00" (string "y")).apply left = (.ok (), left) := by
  intro target left
  have h : (add "/a/00" (string "y")).apply target = (.ok (), left) := by rfl
  obtain ⟨p, segment, container, hp, ha, hiff⟩ := apply_test_of_add_iff rfl h
  have hread : Path.ofPointer "/a/00" = ["a"] ++ ["00"] := by decide +kernel
  obtain ⟨rfl, rfl⟩ := List.append_singleton_inj.mp (hp.symm.trans hread)
  cases ha
  exact ⟨rfl, h, hiff.mpr ⟨Or.inl ⟨_, rfl, by decide⟩, by decide, rfl⟩⟩

/-- A record is given a member under an index, to which no path leads. -/
theorem added_member_out_of_reach :
    let target := object []
    let left := object [("1", string "x")]
    (add "/1" (string "x")).apply target = (.ok (), left) ∧
      (test "/1" (string "x")).apply left = (.error (.notAnArray ""), left) :=
  ⟨rfl, rfl⟩

/-! ### Moves -/

theorem apply_move_eq_ok_iff (hp : Path.ofPointer pointer ≠ []) :
    (move source pointer).apply target = (.ok (), left) ↔
      ∃ value middle, removeValue target "move" (Path.ofPointer source) = (.ok value, middle) ∧
        addValue middle (Path.ofPointer pointer) value.detached = .ok left := by
  have hm : (move source pointer).MayApply := fun hroot => absurd hroot hp
  rw [apply_of_mayApply hm]
  simp only [Operation.path, applyAt]
  cases removeValue target "move" (Path.ofPointer source) with
  | mk result middle =>
    cases result with
    | error fault => simp
    | ok value => simp [orKeep_eq_ok_iff]

/-- **A move below its own source** adds the source to what the removal leaves in its place: to the
document as it is if the source is the root, and to the next element if the source is an element of
an array.  If nothing is left there, or what is left does not take the source, the move fails; a
member of a record is never moved below itself. -/
theorem apply_move_below_source_iff (ht : target.isDocument = true) (hr : rest ≠ [])
    (h : Path.ofPointer pointer = Path.ofPointer source ++ rest) :
    (move source pointer).apply target = (.ok (), left) ↔
      (Path.ofPointer source = [] ∧ addValue target rest target = .ok left) ∨
      ∃ p segment items n value next new, Path.ofPointer source = p ++ [segment] ∧
        target.at? p = some (array items) ∧ Role.ofSegment segment = .index n ∧
        items[n]? = some value ∧ items[n + 1]? = some next ∧
        addValue next rest value = .ok new ∧
        left = target.putAt p (array ((items.eraseIdx n).set n new)) := by
  rw [apply_move_eq_ok_iff (by simp [h, hr]), h]
  rcases List.eq_nil_or_concat' (Path.ofPointer source) with hs | ⟨p, segment, hs⟩
  · have hl : locate target "move" [] = .ok target :=
      locate_eq_ok_iff.mpr ⟨at?_nil target, present?_of_isDocument ht⟩
    rw [hs, removeValue_of_locate target target "move" [] hl, erase_root]
    simp [detached_of_isDocument ht]
  rw [hs]
  constructor
  · rintro ⟨value, middle, hremove, hadd⟩
    obtain ⟨container, ha, hc, -, rfl⟩ := removeValue_eq_ok_iff.mp hremove
    obtain ⟨next, new, hat, hnew, rfl⟩ := (addValue_append_eq_ok_iff hr).mp hadd
    have hdrop := at?_putAt ha (container.dropChild segment)
    rw [at?_append_of_at? hdrop, at?_singleton] at hat
    obtain ⟨items, n, rfl, hn, hnext⟩ := (child?_dropChild_eq_some_iff hc).mp hat
    have hv : value.isDocument = true := isDocument_of_child? (isDocument_of_at? ht ha) hc
    rw [detached_of_isDocument hv] at hnew
    rw [child?_array_of_index hn] at hc
    refine Or.inr ⟨p, segment, items, n, value, next, new, rfl, ha, hn, hc, hnext, hnew, ?_⟩
    rw [putAt_append_of_at? hdrop, putAt_putAt ha, putAt_cons hat, putAt_nil]
    simp only [dropChild, putChild, hn]
  · rintro (⟨hnil, -⟩ | ⟨p', segment', items, n, value, next, new, he, ha, hn, hc, hnext, hnew, rfl⟩)
    · simp at hnil
    obtain ⟨rfl, rfl⟩ := List.append_singleton_inj.mp he
    rw [← child?_array_of_index hn] at hc
    have hv : value.isDocument = true := isDocument_of_child? (isDocument_of_at? ht ha) hc
    have hat := (child?_dropChild_eq_some_iff hc).mpr ⟨items, n, rfl, hn, hnext⟩
    have hdrop := at?_putAt ha ((array items).dropChild segment)
    refine ⟨value, target.putAt p ((array items).dropChild segment),
      removeValue_concat ha hc (present?_of_isDocument hv),
      (addValue_append_eq_ok_iff hr).mpr ⟨next, new, ?_, ?_, ?_⟩⟩
    · rw [at?_append_of_at? hdrop, at?_singleton, hat]
    · rw [detached_of_isDocument hv, hnew]
    · rw [putAt_append_of_at? hdrop, putAt_putAt ha, putAt_cons hat, putAt_nil]
      simp only [dropChild, putChild, hn]

/-- The first element is moved below its own place, where the second one stands by then. -/
theorem apply_move_below_source_iff_of_element :
    let target := array [array [string "x"], array [string "y"]]
    let left := array [array [array [string "x"], string "y"]]
    target.isDocument = true ∧ ["0"] ≠ [] ∧
      Path.ofPointer "/0/0" = Path.ofPointer "/0" ++ ["0"] ∧
      (move "/0" "/0/0").apply target = (.ok (), left) := by
  intro target left
  have hread : Path.ofPointer "/0" = [] ++ ["0"] := by decide +kernel
  have h : Path.ofPointer "/0/0" = Path.ofPointer "/0" ++ ["0"] := by decide +kernel
  have hnew : addValue (array [string "y"]) ["0"] (array [string "x"]) =
      .ok (array [array [string "x"], string "y"]) := by rfl
  exact ⟨rfl, by simp, h, (apply_move_below_source_iff rfl (by simp) h).mpr (Or.inr
    ⟨[], "0", _, 0, _, _, _, hread, rfl, by decide, rfl, rfl, hnew, rfl⟩)⟩

/-- The document is moved below its own root, into which it is copied. -/
theorem root_moved_below_itself :
    let target := object [("a", object [])]
    let left := object [("a", object [("b", object [("a", object [])])])]
    target.isDocument = true ∧ Path.ofPointer "/a/b" = Path.ofPointer "" ++ ["a", "b"] ∧
      (move "" "/a/b").apply target = (.ok (), left) :=
  ⟨rfl, by decide +kernel, rfl⟩

end Operation

end Manifest
