import Manifest.Proofs.Removal
import Manifest.Proofs.Update

/-!
# Removing at a place

Along a path without `-` a removal takes place below one container.  It succeeds exactly where the
container can do without what stands under the last segment (`Value.Drops`): a record can do without
any key, whether it has it or not, and an array without any of its elements (`erase_of_drops`,
`exists_mem_targets_iff`).

The main statement is `erase_eq_ok_iff_drops`.  What is left is the document with the container
changed in this way.  After the removal of a key the path does not resolve, and to remove it again
changes nothing; after the removal of an element those behind it are found one position further
ahead.  A removal that fails changes nothing.
-/

namespace Manifest

namespace Value

/-! ### Below a container -/

/-- The second container is the first without what stands under the segment: a record without a key,
which it need not have had, or an array without one of its elements. -/
inductive Drops : Value → String → Value → Prop
  | member {kind : RecordKind} {members : Fields Value} {key : String}
      (hk : Role.ofSegment key = .key) :
      Drops (record kind members) key (record kind (Fields.erase members key))
  | element {items : List Value} {segment : String} {n : Nat}
      (hs : Role.ofSegment segment = .index n) (hn : n < items.length) :
      Drops (array items) segment (array (items.eraseIdx n))

section Container
variable {container after child : Value} {segment : String}

theorem Drops.dropChild_eq (h : container.Drops segment after) :
    container.dropChild segment = after := by
  cases h with
  | member hk => rfl
  | element hs hn => simp only [dropChild, hs]

theorem exists_drops_of_child? (h : container.child? segment = some child) :
    ∃ after, container.Drops segment after := by
  rcases container_of_child? h with ⟨items, n, rfl, hs, hn⟩ | ⟨kind, members, rfl, hs, -⟩
  · exact ⟨_, .element hs (List.getElem?_eq_some_iff.mp hn).1⟩
  · exact ⟨_, .member hs⟩

theorem agreeBut_erase {kind : RecordKind} {members : Fields Value} {key : String}
    (hk : Role.ofSegment key = .key) :
    (record kind members).AgreeBut (record kind (Fields.erase members key)) key := by
  intro t ht
  cases hr : Role.ofSegment t with
  | key =>
    have hne : t ≠ key := by
      rintro rfl
      exact ht rfl
    rw [child?_record_of_key hr, child?_record_of_key hr, Fields.get?_erase_of_ne members hne]
  | _ => simp [child?, hr, Role.ofArray]

theorem child?_array_eraseIdx (items : List Value) (n m : Nat) :
    (array (items.eraseIdx n)).child? (indexSegment m) =
      (array items).child? (indexSegment (if m < n then m else m + 1)) := by
  rw [child?_array_of_index (Role.ofSegment_indexSegment m),
    child?_array_of_index (Role.ofSegment_indexSegment _), List.getElem?_eraseIdx]
  split <;> rfl

end Container

/-! ### In a document -/

section Place
variable {root container after : Value} {p : Path} {segment : String}

variable (ht : traversal ∉ p ++ [segment])
include ht

/-- **There is something to remove exactly where the container drops it.** -/
theorem exists_mem_targets_iff :
    (∃ e, e ∈ targets false (p ++ [segment]) root) ↔
      ∃ container after, root.at? p = some container ∧ container.Drops segment after := by
  constructor
  · rintro ⟨⟨q, stands⟩, he⟩
    obtain ⟨hq, hs⟩ := (mem_targets false).mp he
    obtain rfl := (Path.isInstance_iff_eq ht).mp hq
    cases stands with
    | some value =>
      obtain ⟨container, hc, hchild⟩ :=
        at?_concat_eq_some_iff.mp ((get_eq_ok_iff_at? ht).mp hs)
      obtain ⟨after, hd⟩ := exists_drops_of_child? hchild
      exact ⟨container, after, hc, hd⟩
    | none =>
      have hp : traversal ∉ p := fun hm => ht (List.mem_append_left _ hm)
      rcases hs with hlacks | ⟨-, hlast, -⟩
      · obtain ⟨kind, members, hc, hk, -⟩ := (lacksMember_concat hp).mp hlacks
        exact ⟨_, _, hc, .member hk⟩
      · rw [List.getLast?_concat, Option.some.injEq] at hlast
        exact absurd (List.mem_append_right p (List.mem_singleton.mpr hlast.symm)) ht
  · rintro ⟨container, after, hc, hd⟩
    have hself : Path.IsInstance (p ++ [segment]) (p ++ [segment]) :=
      (Path.isInstance_iff_eq ht).mpr rfl
    cases hchild : container.child? segment with
    | some child =>
      exact ⟨_, (some_mem_targets false).mpr
        ⟨hself, at?_concat_eq_some_iff.mpr ⟨container, hc, hchild⟩⟩⟩
    | none =>
      cases hd with
      | @member kind members key hk =>
        rw [child?_record_of_key hk] at hchild
        refine ⟨(p ++ [segment], none), (mem_targets false).mpr ⟨hself, Or.inl ?_⟩⟩
        exact (lacksMember_concat (traversal_notMem_of_at? hc)).mpr ⟨kind, members, hc, hk, hchild⟩
      | element hs hn =>
        rw [child?_array_of_index hs, List.getElem?_eq_getElem hn] at hchild
        cases hchild

/-- **A removal leaves the container without what it drops.** -/
theorem erase_of_drops (hc : root.at? p = some container) (hd : container.Drops segment after) :
    root.erase (p ++ [segment]) = (.ok (), root.putAt p after) := by
  obtain ⟨e, he⟩ := (exists_mem_targets_iff ht).mpr ⟨container, after, hc, hd⟩
  cases hl : targets false (p ++ [segment]) root with
  | nil =>
    rw [hl] at he
    cases he
  | cons first others =>
    -- the path is the only one that it stands for
    have hfirst : first.1 = p ++ [segment] := by
      have hm : first ∈ targets false (p ++ [segment]) root := by
        rw [hl]
        exact List.mem_cons_self
      exact (Path.isInstance_iff_eq ht).mp ((mem_targets false).mp hm).1
    rw [erase_of_targets (by simp) hl, hfirst, writeAt_concat hc, Option.elim_none,
      hd.dropChild_eq]

theorem erase_eq_ok_iff {left : Value} :
    root.erase (p ++ [segment]) = (.ok (), left) ↔
      ∃ container after, root.at? p = some container ∧ container.Drops segment after ∧
        left = root.putAt p after := by
  constructor
  · intro h
    have hne : targets false (p ++ [segment]) root ≠ [] := by
      intro hnil
      obtain ⟨fault, hf⟩ := erase_of_no_targets hnil
      rw [hf] at h
      cases h
    obtain ⟨container, after, hc, hd⟩ :=
      (exists_mem_targets_iff ht).mp (List.exists_mem_of_ne_nil _ hne)
    rw [erase_of_drops ht hc hd, Prod.mk.injEq] at h
    exact ⟨container, after, hc, hd, h.2.symm⟩
  · rintro ⟨container, after, hc, hd, rfl⟩
    exact erase_of_drops ht hc hd

theorem erased_key {left : Value} (hk : Role.ofSegment segment = .key)
    (h : root.erase (p ++ [segment]) = (.ok (), left)) :
    ChangedOnlyAt root left (p ++ [segment]) ∧ left.resolves (p ++ [segment]) = .ok false ∧
      left.erase (p ++ [segment]) = (.ok (), left) := by
  obtain ⟨container, after, hc, hd, rfl⟩ := (erase_eq_ok_iff ht).mp h
  cases hd with
  | element hs hn =>
    rw [hk] at hs
    cases hs
  | @member kind members key _ =>
    have hat := at?_putAt hc (record kind (Fields.erase members segment))
    have hgone := Fields.get?_erase_self members segment
    refine ⟨changedOnlyAt_of_agreeBut hc (agreeBut_erase hk),
      resolves_of_missing_key hat hk hgone [], ?_⟩
    rw [erase_of_drops ht hat (.member hk), Fields.erase_of_get?_none hgone, putAt_of_at? hat]

theorem erased_element {left : Value} {n : Nat} (hs : Role.ofSegment segment = .index n)
    (h : root.erase (p ++ [segment]) = (.ok (), left)) :
    ChangedOnlyAt root left p ∧ ∀ m rest value, traversal ∉ rest →
      (left.get (p ++ indexSegment m :: rest) = .ok value ↔
        root.get (p ++ indexSegment (if m < n then m else m + 1) :: rest) = .ok value) := by
  obtain ⟨container, after, hc, hd, rfl⟩ := (erase_eq_ok_iff ht).mp h
  refine ⟨changedOnlyAt_place hc after, fun m rest value hrest => ?_⟩
  cases hd with
  | member hk =>
    rw [hs] at hk
    cases hk
  | @element items _ n' hs' hn =>
    obtain rfl : n = n' := by
      rw [hs, Role.index.injEq] at hs'
      exact hs'
    have hplain : ∀ k, traversal ∉ p ++ indexSegment k :: rest := by
      intro k
      rw [List.mem_append, List.mem_cons, not_or, not_or]
      exact ⟨traversal_notMem_of_at? hc, (Role.indexSegment_ne_traversal k).symm, hrest⟩
    rw [get_eq_ok_iff_at? (hplain _), get_eq_ok_iff_at? (hplain _),
      at?_append_of_at? (at?_putAt hc _), at?_append_of_at? hc, at?_cons, at?_cons,
      child?_array_eraseIdx]

/-- **What a removal along a path without `-` does.**  It succeeds exactly if the path without its
last segment leads to a record and the last segment is a key, or to an array and the last segment is
a position below its length; then it leaves the document with that container without the member or
element.  A key is gone then, and to remove it again changes nothing; behind an element that is
gone, the others are one position further ahead; nothing else is changed.  A removal that fails
changes nothing. -/
theorem erase_eq_ok_iff_drops :
    (∀ left, root.erase (p ++ [segment]) = (.ok (), left) ↔
        ∃ container after, root.get p = .ok container ∧ container.Drops segment after ∧
          left = root.putAt p after) ∧
      (Role.ofSegment segment = .key → ∀ left, root.erase (p ++ [segment]) = (.ok (), left) →
        ChangedOnlyAt root left (p ++ [segment]) ∧ left.resolves (p ++ [segment]) = .ok false ∧
          left.erase (p ++ [segment]) = (.ok (), left)) ∧
      (∀ n, Role.ofSegment segment = .index n →
        ∀ left, root.erase (p ++ [segment]) = (.ok (), left) →
          ChangedOnlyAt root left p ∧ ∀ m rest value, traversal ∉ rest →
            (left.get (p ++ indexSegment m :: rest) = .ok value ↔
              root.get (p ++ indexSegment (if m < n then m else m + 1) :: rest) = .ok value)) ∧
      ∀ fault left, root.erase (p ++ [segment]) = (.error fault, left) → left = root := by
  have hp : traversal ∉ p := fun hm => ht (List.mem_append_left _ hm)
  refine ⟨fun left => ?_, fun hk left h => erased_key ht hk h,
    fun n hs left h => erased_element ht hs h, fun fault left h => ?_⟩
  · simp only [get_eq_ok_iff_at? hp]
    exact erase_eq_ok_iff ht
  · cases hl : targets false (p ++ [segment]) root with
    | nil =>
      obtain ⟨fault', hf⟩ := erase_of_no_targets hl
      rw [hf, Prod.mk.injEq] at h
      exact h.2.symm
    | cons e others =>
      rw [erase_of_targets (by simp) hl] at h
      cases h

end Place

/-- An element is removed although the index is not in its shortest form; a key need not be there.
-/
theorem erase_eq_ok_iff_drops_of_nested :
    let root := object [("a", array [string "x", object [("b", string "y")], null])]
    let left := object [("a", array [object [("b", string "y")], null])]
    root.erase ["a", "00"] = (.ok (), left) ∧ ChangedOnlyAt root left ["a"] ∧
      left.get ["a", "0", "b"] = .ok (string "y") ∧
      root.erase ["a", "1", "c"] = (.ok (), root) ∧
      root.resolves ["a", "1", "c"] = .ok false := by
  intro root left
  have ht : traversal ∉ ["a"] ++ ["00"] := by decide
  have hn : Role.ofSegment "00" = .index 0 := by decide
  have he : root.erase (["a"] ++ ["00"]) = (.ok (), left) := by rfl
  obtain ⟨hc, hshift⟩ := (erase_eq_ok_iff_drops ht).2.2.1 0 hn left he
  have hb : root.get ["a", "1", "b"] = .ok (string "y") := by rfl
  have ht' : traversal ∉ ["a", "1"] ++ ["c"] := by decide
  have he' : root.erase (["a", "1"] ++ ["c"]) = (.ok (), root) := by rfl
  obtain ⟨-, hgone, -⟩ := (erase_eq_ok_iff_drops ht').2.1 (by decide) root he'
  exact ⟨he, hc, (hshift 0 ["b"] (string "y") (by decide)).mpr hb, he', hgone⟩

end Value

end Manifest
