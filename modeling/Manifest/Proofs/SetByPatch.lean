import Manifest.Proofs.Operations
import Manifest.Proofs.Pointer
import Manifest.Proofs.Update

/-!
# Setting values by patches

An addition can be written by a visit (`Value.set`), or by an operation that names its place by a
pointer (`Value.setByPatch`).  An index is a place for the first and a position to insert at for the
second; for everything else both write the same (`addTo_of_put`, `apply_addAt`).

The main statement is `setByPatch_eq_set`: for a path that does not end in an index the two ways
fail alike and leave the same document.
-/

namespace Manifest

open Value

/-- Sets a value by a patch of one operation, which adds what makes the path lead to the value. -/
def Value.setByPatch (root : Value) (path : Path) (value : Value) : Change Unit :=
  match root.additionFor path value with
  | .error fault => (.error fault, root)
  | .ok a => Operation.applyAll [.addAt a.path a.value] root

/-- Adding below a container puts the container with the value added in its place; only the path of
one empty segment cannot be told from the root. -/
theorem Operation.apply_addAt_of_fits {root container new : Value} {p : Path} {segment : String}
    (hp : root.at? p = some container) (hf : container.Fits segment) (hn : p ++ [segment] ≠ [""]) :
    (Operation.addAt (p ++ [segment]) new).apply root =
      Patch.orKeep root
        ((Patch.addTo container (p ++ [segment]) segment new).map (root.putAt p)) := by
  have hread : Path.ofPointer (Path.toPointer (p ++ [segment])) = p ++ [segment] :=
    Path.ofPointer_toPointer hn
  have hadd : Patch.addValue root (p ++ [segment]) new =
      (Patch.addTo container (p ++ [segment]) segment new).map (root.putAt p) :=
    Patch.addValue_concat hp (present?_of_fits hf) segment new
  rw [Operation.addAt, Operation.apply_add hread, hadd]

section Add
variable {root container new after : Value} {p : Path} {segment : String}
  (hf : container.Fits segment) (hi : ∀ n, Role.ofSegment segment ≠ .index n)
  (hput : container.put segment new = some after)
include hf hi hput

theorem Patch.addTo_of_put (path : Path) : addTo container path segment new = .ok after := by
  rcases hf with ⟨items, rfl, hs⟩ | ⟨kind, members, rfl, hs⟩
  · cases hr : Role.ofSegment segment with
    | key => exact absurd hr hs
    | index n => exact absurd hr (hi n)
    | any =>
      simp only [put, hr, Option.some.injEq] at hput
      simp only [addTo, hr, hput]
  · have ha : assign kind members segment new = after := by
      simpa [put, hs, Role.ofArray] using hput
    rw [addTo, ha]

theorem Operation.apply_addAt (hp : root.at? p = some container) (hn : "" ∉ p ++ [segment]) :
    (Operation.addAt (p ++ [segment]) new).apply root = (.ok (), root.putAt p after) := by
  have hne : p ++ [segment] ≠ [""] := by
    intro h
    rw [h] at hn
    exact hn (List.mem_singleton_self "")
  rw [Operation.apply_addAt_of_fits hp hf hne, Patch.addTo_of_put hf hi hput]
  rfl

end Add

namespace Value

variable {root value container : Value} {path p : Path} {segment : String} {a : Addition}

theorem exists_put (hl : Leads root path value a p container segment)
    (hi : path.endsInIndex = false) : ∃ after, container.put segment a.value = some after := by
  cases hput : container.put segment a.value with
  | some after => exact ⟨after, rfl⟩
  | none =>
    obtain ⟨-, items, n, -, hs⟩ := put_eq_none hl.fits hput
    exact absurd hs (hl.not_index hi n)

theorem setByPatch_of_put {after : Value} (h : root.additionFor path value = .ok a)
    (hl : Leads root path value a p container segment) (hi : path.endsInIndex = false)
    (hput : container.put segment a.value = some after) :
    root.setByPatch path value = (.ok (), root.putAt p after) := by
  have hn := hl.named
  rw [hl.path_eq] at hn
  have happ := Operation.apply_addAt hl.fits (hl.not_index hi) hput hl.at_eq hn
  simp only [setByPatch, h, Operation.applyAll, hl.path_eq, happ]

/-- **Setting by a patch is setting**, for a path that does not end in an index: both fail with the
same fault, which is that of the addition if there is none, and both leave the same document. -/
theorem setByPatch_eq_set (root value : Value) (path : Path) (hroot : root.isDocument = true)
    (hp : path ≠ []) (he : "" ∉ path) (hi : path.endsInIndex = false)
    (hv : value.isDocument = true) :
    (root.setByPatch path value).1 = (root.set path value).1.map (fun _ => ()) ∧
      (∀ fault, root.additionFor path value = .error fault →
        (root.set path value).1 = .error fault ∧ (root.setByPatch path value).1 = .error fault) ∧
      (root.set path value).2 = (root.setByPatch path value).2 ∧
      (root.set path value).2.same (root.setByPatch path value).2 = true := by
  cases h : root.additionFor path value with
  | error fault =>
    have hpatch : root.setByPatch path value = (.error fault, root) := by
      simp only [setByPatch, h]
    rw [set_of_additionFor_error h, hpatch]
    refine ⟨rfl, ?_, rfl, same_refl hroot⟩
    rintro fault' ⟨⟩
    exact ⟨rfl, rfl⟩
  | ok a =>
    obtain ⟨p, container, segment, hl⟩ := exists_leads hp he h
    obtain ⟨after, hput⟩ := exists_put hl hi
    rw [set_of_put h hl hv hput, setByPatch_of_put h hl hi hput]
    have hd : root.IsData := isData_of_isDocument hroot
    have hafter : after.IsData :=
      isData_put (isData_of_at? hd hl.at_eq) (isData_of_isDocument (hl.document hv)) hput
    exact ⟨rfl, nofun, rfl, (isData_putAt hd hafter p).same_self⟩

/-- Missing structure is appended alike in both ways. -/
theorem setByPatch_appends_missing_structure :
    let root := object [("a", array [string "x"]), ("b/c", object [])]
    let path : Path := ["b/c", "d", "-", "e"]
    let left := object [("a", array [string "x"]),
      ("b/c", object [("d", array [object [("e", string "y")]])])]
    (root.set path (string "y")).2 = left ∧ (root.setByPatch path (string "y")).2 = left ∧
      left.same left = true := by
  intro root path left
  have hs : (root.set path (string "y")).2 = left := by rfl
  obtain ⟨-, -, heq, hsame⟩ := setByPatch_eq_set root (string "y") path rfl (by decide) (by decide)
    (by decide +kernel) rfl
  rw [← heq, hs] at hsame
  exact ⟨hs, heq.symm.trans hs, hsame⟩

end Value

end Manifest
