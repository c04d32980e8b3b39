import Manifest.Proofs.SetByPatch
import Manifest.Value.Identity

/-!
# Applying additions

An addition is applied by one operation of a patch.  The operation reads its place from a pointer,
inserts under an index, and refuses the root, so it does not take every addition that
`Value.additionFor` gives.  `Addition.Applicable` says which ones it takes.

The main statement is `applyAll_addition_iff`: an addition is applied if it is applicable, and then
its path leads to the value unless that became the prototype of a record; otherwise the operation is
refused and the document stays as it is.
-/

namespace Manifest

open Value

/-! ### Adding below a container -/

/-- An element can be inserted under the segment: if it is an index, every position before it is
taken. -/
def Value.Dense (container : Value) (segment : String) : Prop :=
  ∀ items n, container = array items → Role.ofSegment segment = .index n → n ≤ items.length

section Add
variable {container new : Value} {segment : String}

theorem Patch.addTo_of_dense (hf : container.Fits segment) (hd : container.Dense segment)
    (new : Value) (path : Path) :
    ∃ after, addTo container path segment new = .ok after ∧
      (container.adopts segment = false → after.child? (container.slot segment) = some new) := by
  rcases hf with ⟨items, rfl, hs⟩ | ⟨kind, members, rfl, hs⟩
  · cases hr : Role.ofSegment segment with
    | key => exact absurd hr hs
    | any =>
      have hslot : (array items).slot segment = indexSegment items.length := by simp [slot, hr]
      refine ⟨array (items ++ [new]), by simp only [addTo, hr], fun _ => ?_⟩
      rw [hslot, child?_array_of_index (Role.ofSegment_indexSegment _), List.getElem?_concat_length]
    | index n =>
      have hslot : (array items).slot segment = segment := by simp [slot, hr]
      have hn : n ≤ items.length := hd items n rfl hr
      refine ⟨array (items.insertIdx n new), by simp only [addTo, hr, if_neg (Nat.not_lt.mpr hn)],
        fun _ => ?_⟩
      rw [hslot, child?_array_of_index hr, List.getElem?_insertIdx_self, if_pos hn]
  · have hput := put_record_of_key kind members hs new
    exact ⟨_, rfl, fun ha => child?_slot_of_put hput ha⟩

theorem Patch.addTo_of_not_dense (hd : ¬ container.Dense segment) (path : Path) :
    addTo container path segment new =
      .error (.patchOperation "add" ("index " ++ segment ++ " out of bounds")) := by
  simp only [Value.Dense, not_forall, Nat.not_le] at hd
  obtain ⟨items, n, rfl, hr, hlt⟩ := hd
  simp only [addTo, hr, if_pos hlt]

end Add

/-! ### Applying -/

/-- An operation takes the addition: its place is below the root and not written like the root, and
the container there leaves no gap in front of it. -/
structure Addition.Applicable (a : Addition) (root : Value) : Prop where
  below : a.path ≠ []
  legible : a.path ≠ [""]
  dense : ∀ p segment container, a.path = p ++ [segment] → root.at? p = some container →
    container.Dense segment

section Apply
variable {root value : Value} {path : Path} {a : Addition}

theorem applyAll_addition_of_root (ha : a.path = [] ∨ a.path = [""]) (root : Value) :
    Operation.applyAll [.addAt a.path a.value] root =
      (.error (.patchOperation "add" "cannot modify the document root"), root) := by
  have hread : Path.ofPointer a.path.toPointer = [] := by
    rcases ha with ha | ha <;> rw [ha] <;> decide +kernel
  simp [Operation.applyAll, Operation.apply, Operation.addAt, Operation.path, Operation.isTest,
    Operation.name, hread]

section Completes
variable {p : Path} {container : Value} {segment : String}
  (hc : Completes root path value a p container segment) (hn : a.path ≠ [""])
include hc hn

theorem apply_addition_of_dense (hd : container.Dense segment) :
    ∃ after, Operation.applyAll [.addAt a.path a.value] root = (.ok (), root.putAt p after) ∧
      Patch.addTo container (p ++ [segment]) segment a.value = .ok after ∧
      (container.adopts segment = false →
        after.child? (container.slot segment) = some a.value) := by
  obtain ⟨after, hadd, hslot⟩ := Patch.addTo_of_dense hc.fits hd a.value (p ++ [segment])
  have happly : (Operation.addAt (p ++ [segment]) a.value).apply root =
      (.ok (), root.putAt p after) := by
    rw [Operation.apply_addAt_of_fits hc.at_eq hc.fits (hc.path_eq ▸ hn), hadd]
    rfl
  refine ⟨after, ?_, hadd, hslot⟩
  rw [hc.path_eq]
  simp only [Operation.applyAll, happly]

/-- Once it is applied its path leads to the value, unless a record has taken it for its
prototype. -/
theorem applyAll_addition_of_dense (hp : path ≠ []) (h : root.additionFor path value = .ok a)
    (hd : container.Dense segment) (hv : value.isDocument = true) :
    ∃ left, Operation.applyAll [.addAt a.path a.value] root = (.ok (), left) ∧
      ((∃ first, left.findFirst path value = .ok (some first)) ↔
        container.adopts segment = false) := by
  obtain ⟨after, happly, hadd, hslot⟩ := apply_addition_of_dense hc hn hd
  refine ⟨root.putAt p after, happly, ?_⟩
  cases ha : container.adopts segment with
  | false =>
    obtain ⟨rest, hinst, hrest⟩ := hc.reaches
    have hat : (root.putAt p after).at? (p ++ container.slot segment :: rest) = some value := by
      rw [at?_append_of_at? (at?_putAt hc.at_eq after)]
      exact at?_cons_eq_some_iff.mpr ⟨a.value, hslot ha, hrest⟩
    exact iff_of_true (exists_findFirst hinst hat (holds_iff.mpr (Or.inr (same_refl hv)))) rfl
  | true =>
    have hput : container.put segment a.value = some after := by
      rcases hc.fits with ⟨items, rfl, -⟩ | ⟨kind, members, rfl, hs⟩
      · cases ha
      · rw [put_record_of_key kind members hs, ← Except.ok.inj hadd]
    refine iff_of_false ?_ (by simp)
    rintro ⟨first, hfirst⟩
    exact not_resolves_of_adopts h hp hc ha hput (resolves_of_findFirst hfirst)

theorem applyAll_addition_of_not_dense (hd : ¬ container.Dense segment) :
    Operation.applyAll [.addAt a.path a.value] root =
      (.error (.patchOperation "add" ("index " ++ segment ++ " out of bounds")), root) := by
  have happly : (Operation.addAt (p ++ [segment]) a.value).apply root =
      (.error (.patchOperation "add" ("index " ++ segment ++ " out of bounds")), root) := by
    rw [Operation.apply_addAt_of_fits hc.at_eq hc.fits (hc.path_eq ▸ hn),
      Patch.addTo_of_not_dense hd]
    rfl
  rw [hc.path_eq]
  simp only [Operation.applyAll, happly]

theorem applicable_iff_dense : a.Applicable root ↔ container.Dense segment := by
  constructor
  · intro ha
    exact ha.dense p segment container hc.path_eq hc.at_eq
  · intro hd
    refine ⟨by simp [hc.path_eq], hn, fun q s outer hq hat => ?_⟩
    rw [hc.path_eq] at hq
    obtain ⟨rfl, hs⟩ := List.append_inj' hq rfl
    cases hs
    rw [hc.at_eq] at hat
    cases hat
    exact hd

end Completes

theorem applicable_of_additionFor (hp : path ≠ []) (he : "" ∉ path)
    (hi : path.endsInIndex = false) (h : root.additionFor path value = .ok a) :
    a.Applicable root := by
  obtain ⟨p, container, segment, hl⟩ := exists_leads hp he h
  have hn : a.path ≠ [""] := by
    intro hn
    have hnamed := hl.named
    rw [hn] at hnamed
    exact hnamed (List.mem_singleton_self "")
  rw [applicable_iff_dense hl.toCompletes hn]
  intro items n _ hs
  exact absurd hs (hl.not_index hi n)

/-- **Which additions can be applied**: exactly the applicable ones are, and then the path leads to
the value, unless a record has taken it for its prototype; the others are refused and leave the
document as it is.  A path without empty keys and without an index at its end always has an
applicable addition. -/
theorem applyAll_addition_iff (hp : path ≠ []) (hv : value.isDocument = true)
    (h : root.additionFor path value = .ok a) :
    (a.Applicable root → ∃ left,
        Operation.applyAll [.addAt a.path a.value] root = (.ok (), left) ∧
          ((∃ first, left.findFirst path value = .ok (some first)) ↔
            root.adoptsAt a.path = false)) ∧
      (¬ a.Applicable root → ∃ detail, Operation.applyAll [.addAt a.path a.value] root =
        (.error (.patchOperation "add" detail), root)) ∧
      ("" ∉ path → path.endsInIndex = false → a.Applicable root) := by
  have hplain : "" ∉ path → path.endsInIndex = false → a.Applicable root :=
    fun he hi => applicable_of_additionFor hp he hi h
  by_cases hroot : a.path = [] ∨ a.path = [""]
  · have hna : ¬ a.Applicable root := fun ha => hroot.elim ha.below ha.legible
    exact ⟨fun ha => absurd ha hna, fun _ => ⟨_, applyAll_addition_of_root hroot root⟩, hplain⟩
  rw [not_or] at hroot
  rcases exists_completes hp h with ⟨hnil, -⟩ | ⟨p, container, segment, hc⟩
  · exact absurd hnil hroot.1
  have hadopts : root.adoptsAt a.path = container.adopts segment := by
    rw [hc.path_eq, adoptsAt_concat hc.at_eq]
  rw [applicable_iff_dense hc hroot.2, hadopts]
  exact ⟨fun hd => applyAll_addition_of_dense hc hroot.2 hp h hd hv,
    fun hd => ⟨_, applyAll_addition_of_not_dense hc hroot.2 hd⟩,
    fun he hi => (applicable_iff_dense hc hroot.2).mp (hplain he hi)⟩

/-- Under an index that is taken the addition is inserted. -/
theorem applyAll_addition_under_index :
    let root := object [("a", array [object [("b", array [string "x"])]])]
    let a : Addition := ⟨["a", "0", "b", "0"], string "y"⟩
    root.additionFor ["a", "-", "b", "0"] (string "y") = .ok a ∧ a.Applicable root ∧
      ∃ left first, Operation.applyAll [.addAt a.path a.value] root = (.ok (), left) ∧
        left.findFirst ["a", "-", "b", "0"] (string "y") = .ok (some first) := by
  intro root a
  have h : root.additionFor ["a", "-", "b", "0"] (string "y") = .ok a := by rfl
  have hall := applyAll_addition_iff (by decide) rfl h
  -- an addition that is not refused is an applicable one
  have ha : a.Applicable root := by
    by_contra hna
    obtain ⟨detail, hno⟩ := hall.2.1 hna
    have hok : (Operation.applyAll [.addAt a.path a.value] root).1 = .ok () := by decide +kernel
    rw [hno] at hok
    cases hok
  obtain ⟨left, happly, hreach⟩ := hall.1 ha
  obtain ⟨first, hfirst⟩ := hreach.mpr (by decide +kernel)
  exact ⟨h, ha, left, first, happly, hfirst⟩

/-- An index behind the end has an addition, which is refused. -/
theorem applyAll_addition_behind_gap :
    let root := object [("a", array [string "x"])]
    let a : Addition := ⟨["a", "5"], string "y"⟩
    root.additionFor ["a", "5"] (string "y") = .ok a ∧
      Operation.applyAll [.addAt a.path a.value] root =
        (.error (.patchOperation "add" "index 5 out of bounds"), root) := by
  intro root a
  exact ⟨by rfl, by decide +kernel⟩

end Apply

end Manifest
