import Manifest.Proofs.Erasing
import Manifest.Proofs.Operations

/-!
# Places that were located

An operation that writes in place of a value locates the value first, with a visit that reads, and
then visits the place once more.  Both visits go the same way: a place that exists has one target,
itself (`targets_of_at?`), so the second one succeeds, is offered the value that was located and
nothing else, and changes the document there only (`run_writing_located`).

A value that is missing is therefore noticed when it is located.  If one of the places at which an
operation looks for a value does not resolve, the operation reports that (`LooksUp.apply_missing`).
Every other fault of an operation is a report of its own as well, or a path that does not fit the
document (`isOfPatch_of_apply`).

The main statement is `applyAll_located`, which puts this together for the operations of a patch.
-/

namespace Manifest

/-- The faults of a patch: an operation reports that it cannot be applied, or a path does not fit
the document. -/
def Fault.isOfPatch : Fault → Bool
  | patchOperation _ _ => true
  | fault => fault.isMisfit

theorem Fault.isOfPatch_of_isMisfit {fault : Fault} (h : fault.isMisfit = true) :
    fault.isOfPatch = true := by
  cases fault <;> first | rfl | cases h

theorem Fault.isNotFound_of_isOfPatch {fault : Fault} (h : fault.isOfPatch = true) :
    fault.isNotFound = false := by
  cases fault <;> first | rfl | cases h

/-! ### Writing where a value stands -/

/-- What a visit comes to that writes at a place, where `old` stands: it succeeds with what it
writes, is offered `old` once, and changes the document there only.  If nothing is written, the
member or element is gone, and the elements behind it are found one position further ahead. -/
structure WritesOnlyAt (before : Value) (place : Path) (old new : Value) (o : Outcome Value) :
    Prop where
  succeeds : o.result = .ok new
  offered : o.history.offered = [old]
  left : o.left = before.writeAt place new.present?
  replaced : new.present? = some new →
    ChangedOnlyAt before o.left place ∧ o.left.get place = .ok new
  member_removed : ∀ p key, place = p ++ [key] → Role.ofSegment key = .key →
    new.present? = none → ChangedOnlyAt before o.left place ∧ o.left.resolves place = .ok false
  element_removed : ∀ p segment n, place = p ++ [segment] → Role.ofSegment segment = .index n →
    new.present? = none → ChangedOnlyAt before o.left p ∧ ∀ m rest value, traversal ∉ rest →
      (o.left.get (p ++ indexSegment m :: rest) = .ok value ↔
        before.get (p ++ indexSegment (if m < n then m else m + 1) :: rest) = .ok value)

open Value

/-- **A visit that writes where a value stands** succeeds, is offered that value once and changes
the document there only. -/
theorem Visitor.run_writing_located (budget : Nat) {before old : Value} {place : Path}
    (hp : place ≠ []) (h : before.at? place = some old) (new : Value) :
    WritesOnlyAt before place old new ((writing new).run budget before place) := by
  obtain ⟨p, segment, rfl⟩ := (List.eq_nil_or_concat' place).resolve_left hp
  obtain ⟨container, ha, hc⟩ := at?_concat_eq_some_iff.mp h
  obtain ⟨hr, hl⟩ := run_writing_child budget ha new hc
  have hleft : ((writing new).run budget before (p ++ [segment])).left =
      before.writeAt (p ++ [segment]) new.present? := by rw [hl, writeAt_concat ha]
  have ht : traversal ∉ p ++ [segment] := traversal_notMem_of_at? h
  have herase := erase_of_at?_eq hp h
  refine ⟨hr, ?_, hleft, fun hn => ?_, fun q key hq hk hn => ?_, fun q s n hq hs hn => ?_⟩
  · have hw := (run_rewrites (fun _ _ => new) false budget before (p ++ [segment])).offered
    rw [targets_of_at? false h] at hw
    exact hw
  · have hput : ((writing new).run budget before (p ++ [segment])).left =
        before.putAt (p ++ [segment]) new := by
      rw [hl, hn, putAt_append_of_at? ha, putAt_cons hc, putAt_nil]
      rfl
    rw [hput]
    exact ⟨changedOnlyAt_place h new, get_of_at? (at?_putAt h new)⟩
  · obtain ⟨rfl, rfl⟩ := List.append_singleton_inj.mp hq
    rw [hleft, hn]
    obtain ⟨hchanged, hgone, -⟩ := erased_key ht hk herase
    exact ⟨hchanged, hgone⟩
  · obtain ⟨rfl, rfl⟩ := List.append_singleton_inj.mp hq
    rw [hleft, hn]
    exact erased_element ht hs herase

/-! ### Locating -/

namespace Patch

variable {target container value : Value} {operation segment : String} {path : Path}
  {fault : Fault}

theorem locate_error (h : locate target operation path = .error fault) :
    fault = .patchOperation operation (absence path) ∨
      target.get path = .error fault ∧ fault.isMisfit = true := by
  by_cases ht : traversal ∈ path
  · rw [locate_of_mem target operation ht] at h
    cases h
    exact Or.inl rfl
  cases hg : target.get path with
  | ok found =>
    rw [locate_of_get operation ht hg] at h
    cases hf : found.present? with
    | none =>
      rw [hf] at h
      cases h
      exact Or.inl rfl
    | some w =>
      rw [hf] at h
      cases h
  | error missed =>
    rw [locate_of_get_error operation ht hg, Except.error.injEq] at h
    cases hf : missed.isNotFound with
    | true => exact Or.inl (by rw [← h, hf, if_pos rfl])
    | false =>
      obtain rfl : missed = fault := by rwa [hf, if_neg Bool.false_ne_true] at h
      exact Or.inr ⟨rfl, isMisfit_of_obstacle (get_eq_error_iff.mp ⟨hg, hf⟩)⟩

theorem locate_of_missing (operation : String) (h : target.resolves path = .ok false) :
    locate target operation path = .error (.patchOperation operation (absence path)) := by
  obtain ⟨missing, hg, hn⟩ := resolves_eq_ok_false_iff.mp h
  by_cases ht : traversal ∈ path
  · exact locate_of_mem target operation ht
  · rw [locate_of_get_error operation ht hg, hn, if_pos rfl]

theorem isOfPatch_of_locate (h : locate target operation path = .error fault) :
    fault.isOfPatch = true := by
  rcases locate_error h with rfl | ⟨-, hm⟩
  · rfl
  · exact Fault.isOfPatch_of_isMisfit hm

theorem isOfPatch_of_addTo (h : addTo container path segment value = .error fault) :
    fault.isOfPatch = true := by
  unfold addTo at h
  split at h
  · split at h
    · cases h
    · split at h <;> cases h
      rfl
    · cases h
      rfl
  · cases h
  · cases h
    rfl

end Patch

/-! ### Operations -/

namespace Operation

open Patch

variable {op : Operation} {before document left old new : Value} {place : Path} {name : String}
  {fault : Fault}

/-- The operation writes a value in place of what stands at a place; nothing, if it takes that
away. -/
inductive WritesAt : Operation → Path → Value → Prop
  | removed (pointer : String) : WritesAt (remove pointer) (Path.ofPointer pointer) absent
  | replaced (pointer : String) (value : Value) :
    WritesAt (replace pointer value) (Path.ofPointer pointer) value
  | moved (source pointer : String) : WritesAt (move source pointer) (Path.ofPointer source) absent

/-- What is still to be done when an operation has written in place of `old`: a move adds what it
has taken away. -/
def proceed (op : Operation) (old left : Value) : Change Unit :=
  match op with
  | move _ pointer => orKeep left (addValue left (Path.ofPointer pointer) old.detached)
  | _ => (.ok (), left)

/-- **What was located is written over**: the visit that writes succeeds, and the operation goes on
with what it leaves. -/
theorem WritesAt.apply (h : op.WritesAt place new) (hp : place ≠ [])
    (hl : locate before op.name place = .ok old) :
    WritesOnlyAt before place old new ((Visitor.writing new).run 0 before place) ∧
      (op.MayApply →
        op.apply before = op.proceed old ((Visitor.writing new).run 0 before place).left) := by
  have hw := Visitor.run_writing_located 0 hp (locate_eq_ok_iff.mp hl).1 new
  have hr := hw.succeeds
  refine ⟨hw, fun hm => ?_⟩
  rw [apply_of_mayApply hm]
  cases h with
  | removed pointer =>
    have hl' : locate before "remove" (Path.ofPointer pointer) = .ok old := hl
    simp only [applyAt, removeValue, hl', Visitor.removing, Operation.path, hr]
    rfl
  | replaced pointer =>
    have hl' : locate before "replace" (Path.ofPointer pointer) = .ok old := hl
    simp only [applyAt, replaceValue, hl', Operation.path, hr]
    rfl
  | moved source pointer =>
    have hl' : locate before "move" (Path.ofPointer source) = .ok old := hl
    simp only [applyAt, removeValue, hl', Visitor.removing, Operation.path, hr]
    rfl

/-- **A value that is missing is reported by the operation that looks for it.** -/
theorem LooksUp.apply_missing (h : LooksUp before op name document place) (hm : op.MayApply)
    (hn : document.resolves place = .ok false) :
    op.apply before = (.error (.patchOperation name (absence place)), document) := by
  have hl := locate_of_missing name hn
  cases h with
  | removed pointer =>
    rw [apply_of_mayApply hm]
    simp only [applyAt, Operation.path, removeValue_of_locate_error _ _ _ hl]
    rfl
  | replaced pointer value =>
    rw [apply_of_mayApply hm]
    simp only [applyAt, replaceValue, Operation.path, hl]
  | tested pointer value =>
    rw [apply_of_mayApply hm]
    simp only [applyAt, Operation.path, hl]
  | copied source pointer =>
    rw [apply_of_mayApply hm]
    simp only [applyAt, hl]
  | moved source pointer =>
    rw [apply_of_mayApply hm]
    simp only [applyAt, removeValue_of_locate_error _ _ _ hl]
  | parent ha =>
    rw [ha.apply_eq hm]
    simp only [addValue, hl, orKeep]

/-- **An operation fails with a report of its own**, or with a path that does not fit the document.
-/
theorem isOfPatch_of_apply (h : op.apply before = (.error fault, left)) :
    fault.isOfPatch = true := by
  cases fails_of_apply h with
  | root hm => rfl
  | lookUp hlooks hl => exact isOfPatch_of_locate hl
  | addition hadds ha => exact isOfPatch_of_addTo ha
  | mismatch pointer value => rfl

/-! ### Patches -/

/-- A patch comes to one of its operations when those in front of it have made `before` of the
document. -/
def ComesTo (ops : List Operation) (target : Value) (op : Operation) (before : Value) : Prop :=
  ∃ done rest, ops = done ++ op :: rest ∧ applyAll done target = (.ok (), before)

theorem ComesTo.applyAll_fails {ops : List Operation} {target : Value}
    (h : ComesTo ops target op before) (hop : op.apply before = (.error fault, left)) :
    applyAll ops target = (.error fault, left) := by
  obtain ⟨done, rest, rfl, hdone⟩ := h
  induction done generalizing target with
  | nil =>
    cases hdone
    simp only [List.nil_append, applyAll, hop]
  | cons first done ih =>
    obtain ⟨middle, hfirst, hrest⟩ := applyAll_cons_eq_ok_iff.mp hdone
    simp only [List.cons_append, applyAll, hfirst]
    exact ih hrest

/-- **What a patch has located it writes over, and what it cannot locate it reports.**  When it
comes to an operation that writes in place of a value that was located below the root, the visit
that writes succeeds, is offered that value once and changes the document there only, and the
operation goes on with what it leaves.  When an operation looks for a value at a place that does not
resolve, the patch fails with the report of that operation.  So a patch fails with reports and paths
that do not fit the document, and never with a missing place. -/
theorem applyAll_located (ops : List Operation) (target : Value) :
    (∀ op before, ComesTo ops target op before →
      (∀ place new old, op.WritesAt place new → place ≠ [] →
        locate before op.name place = .ok old →
          WritesOnlyAt before place old new ((Visitor.writing new).run 0 before place) ∧
          (op.MayApply → op.apply before =
            op.proceed old ((Visitor.writing new).run 0 before place).left)) ∧
      ∀ name document place, LooksUp before op name document place → op.MayApply →
        document.resolves place = .ok false →
          applyAll ops target = (.error (.patchOperation name (absence place)), document)) ∧
    ∀ fault left, applyAll ops target = (.error fault, left) →
      fault.isOfPatch = true ∧ fault.isNotFound = false := by
  refine ⟨fun op before hc => ⟨fun place new old hw hp hl => hw.apply hp hl, ?_⟩, ?_⟩
  · intro name document place hlooks hm hn
    exact hc.applyAll_fails (hlooks.apply_missing hm hn)
  · intro fault left h
    obtain ⟨done, op, rest, before, -, -, hop⟩ := exists_failing h
    have hf := isOfPatch_of_apply hop
    exact ⟨hf, Fault.isNotFound_of_isOfPatch hf⟩

/-- An element is moved, a member replaced, and one that is missing cannot be removed. -/
theorem applyAll_located_of_missing_member :
    let target := object [("a", array [string "x", string "y"]), ("b", null)]
    let moved := object [("a", array [string "y"]), ("b", null), ("c", string "x")]
    let left := object [("a", array [string "y"]), ("b", string "z"), ("c", string "x")]
    let ops := [move "/a/0" "/c", replace "/b" (string "z"), remove "/d"]
    ComesTo ops target (move "/a/0" "/c") target ∧
      ((Visitor.writing absent).run 0 target ["a", "0"]).history.offered = [string "x"] ∧
      ComesTo ops target (replace "/b" (string "z")) moved ∧
      ChangedOnlyAt moved left ["b"] ∧
      applyAll ops target = (.error (.patchOperation "remove" "path /d does not exist"), left) := by
  intro target moved left ops
  have hfirst : ComesTo ops target (move "/a/0" "/c") target := ⟨[], _, rfl, rfl⟩
  have hsecond : ComesTo ops target (replace "/b" (string "z")) moved :=
    ⟨[move "/a/0" "/c"], _, rfl, by rfl⟩
  have hthird : ComesTo ops target (remove "/d") left :=
    ⟨[move "/a/0" "/c", replace "/b" (string "z")], [], rfl, by rfl⟩
  have hsource : Path.ofPointer "/a/0" = ["a", "0"] := by decide +kernel
  have hmember : Path.ofPointer "/b" = ["b"] := by decide +kernel
  have hmissing : Path.ofPointer "/d" = ["d"] := by decide +kernel
  have hlocated : locate target "move" ["a", "0"] = .ok (string "x") := by rfl
  have hlocated' : locate moved "replace" ["b"] = .ok null := by rfl
  have hgone : left.resolves ["d"] = .ok false := by rfl
  have hmoved := (((applyAll_located ops target).1 _ _ hfirst).1 ["a", "0"] absent (string "x")
    (hsource ▸ .moved "/a/0" "/c") (by simp) hlocated).1
  have hreplaced := (((applyAll_located ops target).1 _ _ hsecond).1 ["b"] (string "z") null
    (hmember ▸ .replaced "/b" (string "z")) (by simp) hlocated').1
  have hfails := ((applyAll_located ops target).1 _ _ hthird).2 "remove" left ["d"]
    (hmissing ▸ .removed "/d") (fun hp => absurd (hmissing.symm.trans hp) (by simp)) hgone
  exact ⟨hfirst, hmoved.offered, hsecond, (hreplaced.replaced rfl).1, hfails⟩

end Operation

end Manifest
