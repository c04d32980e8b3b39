import Manifest.Patch
import Manifest.Proofs.Search
import Manifest.Proofs.Writing

/-!
# Failing patches

An operation that fails leaves the document as it was, with one exception: a move takes the value
away from its source before it looks at the place where the value is to go.  `Operation.Takes` says
when there is something to take; an operation that takes nothing changes nothing when it fails
(`apply_error`), and one that takes something has taken it then (`Takes.apply_error`).

`Operation.Fails` lists the ways in which an operation can fail, once for all (`fails_of_apply`): it
is about the root, a value that it looks for is not located, the container does not take what is
added, or a test finds something else.

The main statement is `applyAll_error`: a patch that fails leaves the document with the operations
before the failing one applied, exactly if that operation does not take anything; otherwise it
leaves what removing the source leaves.
-/

namespace Manifest

namespace Value

theorem dropChild_ne {v child : Value} {segment : String} (h : v.child? segment = some child) :
    v.dropChild segment ≠ v := by
  intro he
  rcases container_of_child? h with ⟨items, n, rfl, hs, hn⟩ | ⟨kind, members, rfl, -, hm⟩
  · obtain ⟨hlt, -⟩ := List.getElem?_eq_some_iff.mp hn
    have hi : items.eraseIdx n = items := by simpa [dropChild, hs] using he
    have hl := congrArg List.length hi
    rw [List.length_eraseIdx_of_lt hlt] at hl
    omega
  · have hk : Fields.erase members segment = members := by simpa [dropChild] using he
    rw [← hk, Fields.get?_erase_self] at hm
    cases hm

theorem erase_concat {root container child : Value} {p : Path} {segment : String}
    (hp : root.at? p = some container) (hc : container.child? segment = some child) :
    root.erase (p ++ [segment]) = (.ok (), root.putAt p (container.dropChild segment)) := by
  obtain ⟨hr, hl⟩ := Visitor.run_removing 0 hp hc
  simp only [erase, hr, hl]
  rfl

theorem erase_root (root : Value) : root.erase [] = (.ok (), root) := rfl

theorem erase_of_at? {root value : Value} {path : Path} (h : root.at? path = some value)
    (hp : path ≠ []) : (root.erase path).1 = .ok () ∧ (root.erase path).2 ≠ root := by
  rcases List.eq_nil_or_concat' path with rfl | ⟨p, segment, rfl⟩
  · exact absurd rfl hp
  obtain ⟨container, ha, hc⟩ := at?_concat_eq_some_iff.mp h
  rw [erase_concat ha hc]
  refine ⟨rfl, fun he => ?_⟩
  dsimp only at he
  have hd := at?_putAt ha (container.dropChild segment)
  rw [he, ha, Option.some.injEq] at hd
  exact dropChild_ne hc hd.symm

end Value

namespace Patch

open Value

/-! ### The parts of an operation -/

section Locate
variable {target value : Value} {operation : String} {path : Path}

/-- The report of a place at which no value is found. -/
def absence (path : Path) : String :=
  if traversal ∈ path then "\"-\" does not address an existing value"
  else "path " ++ path.toPointer ++ " does not exist"

theorem any_traversal_eq_true_iff :
    (path.any fun segment => Role.ofSegment segment = .any) = true ↔ traversal ∈ path := by
  simp [List.any_eq_true, Role.ofSegment_eq_any_iff]

theorem locate_of_mem (target : Value) (operation : String) (ht : traversal ∈ path) :
    locate target operation path = .error (.patchOperation operation (absence path)) := by
  simp only [locate, any_traversal_eq_true_iff.mpr ht, if_true, absence, if_pos ht]

section Found
variable (operation) (ht : traversal ∉ path)
include ht

theorem locate_of_get {found : Value} (hg : target.get path = .ok found) :
    locate target operation path =
      found.present?.elim (.error (.patchOperation operation (absence path))) .ok := by
  have hn := mt any_traversal_eq_true_iff.mp ht
  simp only [locate, hn, if_false, hg, Bool.false_eq_true, absence, if_neg ht]
  cases found.present? <;> rfl

theorem locate_of_get_error {fault : Fault} (hg : target.get path = .error fault) :
    locate target operation path =
      .error (if fault.isNotFound then .patchOperation operation (absence path) else fault) := by
  have hn := mt any_traversal_eq_true_iff.mp ht
  simp only [locate, hn, if_false, hg, Bool.false_eq_true, absence, if_neg ht]

end Found

theorem locate_eq_ok_iff :
    locate target operation path = .ok value ↔
      target.at? path = some value ∧ value.present? = some value := by
  by_cases ht : traversal ∈ path
  · rw [locate_of_mem target operation ht]
    constructor
    · rintro ⟨⟩
    · rintro ⟨ha, -⟩
      exact absurd ht (traversal_notMem_of_at? ha)
  rw [← get_eq_ok_iff_at? ht]
  cases hg : target.get path with
  | error fault => simp [locate_of_get_error operation ht hg]
  | ok found =>
    rw [locate_of_get operation ht hg]
    cases hf : found.present? with
    | none =>
      constructor
      · rintro ⟨⟩
      · rintro ⟨⟨⟩, hv⟩
        rw [hf] at hv
        cases hv
    | some w =>
      obtain ⟨rfl, -, -⟩ := present?_eq_some_iff.mp hf
      rw [Option.elim_some, Except.ok.injEq]
      constructor
      · rintro rfl
        exact ⟨rfl, hf⟩
      · rintro ⟨⟨⟩, -⟩
        rfl

end Locate

section Operations
variable (target value : Value) (operation : String) (path : Path)

theorem removeValue_of_locate (h : locate target operation path = .ok value) :
    removeValue target operation path = (.ok value, (target.erase path).2) := by
  obtain ⟨ha, -⟩ := locate_eq_ok_iff.mp h
  have hr : (Visitor.removing.run 0 target path).result.map (fun _ => ()) = .ok () := by
    by_cases hp : path = []
    · subst hp
      rfl
    · exact (erase_of_at? ha hp).1
  cases hres : (Visitor.removing.run 0 target path).result with
  | error fault =>
    rw [hres] at hr
    cases hr
  | ok old =>
    simp only [removeValue, h, hres, erase]
    rfl

theorem removeValue_of_locate_error {fault : Fault}
    (h : locate target operation path = .error fault) :
    removeValue target operation path = (.error fault, target) := by
  simp only [removeValue, h]

section Failing
variable {target value operation path} {fault : Fault} {left : Value}

theorem discard_eq_error_iff {change : Change Value} :
    ((change.1.map fun _ => (), change.2) : Change Unit) = (.error fault, left) ↔
      change = (.error fault, left) := by
  obtain ⟨result, after⟩ := change
  cases result <;> simp [Except.map]

theorem removeValue_eq_error_iff :
    removeValue target operation path = (.error fault, left) ↔
      locate target operation path = .error fault ∧ left = target := by
  cases hl : locate target operation path with
  | error fault' =>
    rw [removeValue_of_locate_error target operation path hl, Prod.mk.injEq, eq_comm (a := target)]
  | ok value =>
    rw [removeValue_of_locate target value operation path hl]
    simp

theorem replaceValue_eq_error_iff (hp : path ≠ []) :
    replaceValue target path value = (.error fault, left) ↔
      locate target "replace" path = .error fault ∧ left = target := by
  cases hl : locate target "replace" path with
  | error fault' =>
    simp only [replaceValue, hl, Prod.mk.injEq, Except.error.injEq]
    rw [eq_comm (a := target)]
  | ok old =>
    obtain ⟨ha, -⟩ := locate_eq_ok_iff.mp hl
    obtain ⟨p, segment, rfl⟩ := (List.eq_nil_or_concat' path).resolve_left hp
    obtain ⟨container, hc, hchild⟩ := at?_concat_eq_some_iff.mp ha
    have hr := (Visitor.run_writing_child 0 hc value hchild).1
    simp [replaceValue, hl, hr, Except.map]

theorem orKeep_eq_error_iff {change : Except Fault Value} :
    orKeep target change = (.error fault, left) ↔ change = .error fault ∧ left = target := by
  cases change with
  | error fault' =>
    simp only [orKeep, Prod.mk.injEq, Except.error.injEq]
    rw [eq_comm (a := target)]
  | ok new => simp [orKeep]

end Failing

end Operations

end Patch

namespace Operation

open Patch

/-! ### The root -/

section Root
variable {op : Operation}

/-- The operation is about a place that it may be about: the root is left to tests. -/
def MayApply (op : Operation) : Prop := Path.ofPointer op.path = [] → op.isTest = true

theorem apply_of_mayApply (h : op.MayApply) (target : Value) :
    op.apply target = applyAt target (Path.ofPointer op.path) op := by
  have hroot : ¬ ((Path.ofPointer op.path).isEmpty && !op.isTest) = true := by
    intro hr
    rw [Bool.and_eq_true, List.isEmpty_iff, Bool.not_eq_true'] at hr
    rw [h hr.1] at hr
    cases hr.2
  simp only [apply, hroot, if_false, Bool.false_eq_true]

theorem apply_of_not_mayApply (h : ¬ op.MayApply) (target : Value) :
    op.apply target =
      (.error (.patchOperation op.name "cannot modify the document root"), target) := by
  rw [MayApply, Classical.not_imp, Bool.not_eq_true] at h
  simp only [apply, h.1, h.2, List.isEmpty_nil, Bool.not_false, Bool.and_self, if_true]

end Root

/-! ### Failing operations -/

/-- The operation, applied to `before`, adds a value to a document at a path: what is copied or
moved comes from its source, and a move has removed it there. -/
inductive Adds (before : Value) : Operation → Value → Path → Value → Prop
  | added (pointer : String) (value : Value) :
    Adds before (add pointer value) before (Path.ofPointer pointer) value
  | copied {source : String} (pointer : String) {value : Value}
    (h : locate before "copy" (Path.ofPointer source) = .ok value) :
    Adds before (copy source pointer) before (Path.ofPointer pointer) value.detached
  | moved {source : String} (pointer : String) {value left : Value}
    (h : removeValue before "move" (Path.ofPointer source) = (.ok value, left)) :
    Adds before (move source pointer) left (Path.ofPointer pointer) value.detached

/-- The operation, applied to `before`, looks for a value at a place of a document, and reports
under a name that there is none. -/
inductive LooksUp (before : Value) : Operation → String → Value → Path → Prop
  | removed (pointer : String) :
    LooksUp before (remove pointer) "remove" before (Path.ofPointer pointer)
  | replaced (pointer : String) (value : Value) :
    LooksUp before (replace pointer value) "replace" before (Path.ofPointer pointer)
  | tested (pointer : String) (value : Value) :
    LooksUp before (test pointer value) "test" before (Path.ofPointer pointer)
  | copied (source pointer : String) :
    LooksUp before (copy source pointer) "copy" before (Path.ofPointer source)
  | moved (source pointer : String) :
    LooksUp before (move source pointer) "move" before (Path.ofPointer source)
  | parent {op : Operation} {document value : Value} {path : Path}
    (h : Adds before op document path value) : LooksUp before op "add" document path.dropLast

/-- The ways in which an operation fails, with the fault and the document that is left. -/
inductive Fails (before : Value) : Operation → Fault → Value → Prop
  | root {op : Operation} (h : ¬ op.MayApply) :
    Fails before op (.patchOperation op.name "cannot modify the document root") before
  | lookUp {op : Operation} {name : String} {document : Value} {place : Path} {fault : Fault}
    (h : LooksUp before op name document place) (hl : locate document name place = .error fault) :
    Fails before op fault document
  | addition {op : Operation} {document value container : Value} {path : Path} {fault : Fault}
    (h : Adds before op document path value)
    (ha : addTo container path (path.getLast?.getD "") value = .error fault) :
    Fails before op fault document
  | mismatch (pointer : String) (value : Value) : Fails before (test pointer value)
    (.patchOperation "test" ("value at " ++ pointer ++ " does not match")) before

section Failing
variable {op : Operation} {before document value left : Value} {path : Path} {fault : Fault}

theorem Adds.apply_eq (h : Adds before op document path value) (hm : op.MayApply) :
    op.apply before = orKeep document (addValue document path value) := by
  rw [apply_of_mayApply hm]
  cases h with
  | added pointer value => rfl
  | copied pointer h => simp only [applyAt, h, Operation.path]
  | moved pointer h => simp only [applyAt, h, Operation.path]

theorem Adds.fails (h : Adds before op document path value)
    (ha : addValue document path value = .error fault) : Fails before op fault document := by
  unfold addValue at ha
  split at ha
  · next hl =>
    cases ha
    exact .lookUp (.parent h) hl
  · next container hl =>
    cases hadd : addTo container path (path.getLast?.getD "") value with
    | ok new =>
      rw [hadd] at ha
      cases ha
    | error fault' =>
      rw [hadd] at ha
      cases ha
      exact .addition h hadd

/-- **An operation fails in one of the ways listed.** -/
theorem fails_of_apply (h : op.apply before = (.error fault, left)) :
    Fails before op fault left := by
  by_cases hm : op.MayApply
  case neg =>
    rw [apply_of_not_mayApply hm] at h
    cases h
    exact .root hm
  rw [apply_of_mayApply hm] at h
  cases op with
  | add pointer value =>
    obtain ⟨ha, rfl⟩ := orKeep_eq_error_iff.mp h
    exact (Adds.added pointer value).fails ha
  | remove pointer =>
    obtain ⟨hl, rfl⟩ := removeValue_eq_error_iff.mp (discard_eq_error_iff.mp h)
    exact .lookUp (.removed pointer) hl
  | replace pointer value =>
    have hp : Path.ofPointer pointer ≠ [] := fun hp => Bool.false_ne_true (hm hp)
    obtain ⟨hl, rfl⟩ := (replaceValue_eq_error_iff hp).mp h
    exact .lookUp (.replaced pointer value) hl
  | copy source pointer =>
    cases hl : locate before "copy" (Path.ofPointer source) with
    | error fault' =>
      simp only [applyAt, hl] at h
      cases h
      exact .lookUp (.copied source pointer) hl
    | ok value =>
      simp only [applyAt, hl] at h
      obtain ⟨ha, rfl⟩ := orKeep_eq_error_iff.mp h
      exact (Adds.copied pointer hl).fails ha
  | move source pointer =>
    cases hr : removeValue before "move" (Path.ofPointer source) with
    | mk result middle =>
      cases result with
      | error fault' =>
        simp only [applyAt, hr] at h
        cases h
        obtain ⟨hl, rfl⟩ := removeValue_eq_error_iff.mp hr
        exact .lookUp (.moved source pointer) hl
      | ok value =>
        simp only [applyAt, hr] at h
        obtain ⟨ha, rfl⟩ := orKeep_eq_error_iff.mp h
        exact (Adds.moved pointer hr).fails ha
  | test pointer value =>
    cases hl : locate before "test" (Path.ofPointer pointer) with
    | error fault' =>
      simp only [applyAt, Operation.path, hl] at h
      cases h
      exact .lookUp (.tested pointer value) hl
    | ok found =>
      simp only [applyAt, Operation.path, hl] at h
      split at h <;> cases h
      exact .mismatch pointer value

end Failing

/-! ### Operations that take something away -/

/-- The operation takes a value away from its source: it is a move between places below the root,
and the source is there. -/
def Takes (op : Operation) (before : Value) (source : String) : Prop :=
  ∃ path value, op = .move source path ∧ Path.ofPointer path ≠ [] ∧ Path.ofPointer source ≠ [] ∧
    locate before "move" (Path.ofPointer source) = .ok value

/-- What an operation takes can be removed, and the document is another one then. -/
theorem Takes.remove {op : Operation} {before : Value} {source : String}
    (h : op.Takes before source) :
    (Operation.remove source).apply before = (.ok (), (before.erase (Path.ofPointer source)).2) ∧
      (before.erase (Path.ofPointer source)).2 ≠ before := by
  obtain ⟨path, value, -, -, hs, hl⟩ := h
  have ha := locate_eq_ok_iff.mp hl
  refine ⟨?_, (Value.erase_of_at? ha.1 hs).2⟩
  have hr := removeValue_of_locate before value "remove" _ (locate_eq_ok_iff.mpr ha)
  simp [apply, Operation.path, hs, applyAt, hr, Except.map]

theorem Takes.apply_error {op : Operation} {before left : Value} {source : String} {fault : Fault}
    (ht : op.Takes before source) (h : op.apply before = (.error fault, left)) :
    left = (before.erase (Path.ofPointer source)).2 := by
  obtain ⟨path, value, rfl, hp, -, hl⟩ := ht
  have hm : (move source path).MayApply := fun hroot => absurd hroot hp
  rw [apply_of_mayApply hm] at h
  simp only [Operation.path, applyAt, removeValue_of_locate before _ _ _ hl] at h
  exact (orKeep_eq_error_iff.mp h).2

theorem Adds.document_eq {op : Operation} {before document value : Value} {path : Path}
    (h : Adds before op document path value) (hm : op.MayApply)
    (hn : ∀ source, ¬ op.Takes before source) : document = before := by
  cases h with
  | added pointer value => rfl
  | copied pointer h => rfl
  | @moved source pointer value _ h =>
    cases hl : locate before "move" (Path.ofPointer source) with
    | error fault =>
      rw [removeValue_of_locate_error before _ _ hl] at h
      cases h
    | ok found =>
      rw [removeValue_of_locate before found _ _ hl] at h
      cases h
      -- only the root can be moved without being taken away
      have hs : Path.ofPointer source = [] := by
        by_contra hs
        have hp : Path.ofPointer pointer ≠ [] := fun hp => Bool.false_ne_true (hm hp)
        exact hn source ⟨pointer, _, rfl, hp, hs, hl⟩
      rw [hs, Value.erase_root]

/-- **A failing operation that takes nothing leaves the document as it was.** -/
theorem apply_error {op : Operation} {before left : Value} {fault : Fault}
    (hn : ∀ source, ¬ op.Takes before source) (h : op.apply before = (.error fault, left)) :
    left = before := by
  by_cases hm : op.MayApply
  case neg =>
    rw [apply_of_not_mayApply hm] at h
    exact (Prod.mk.inj h).2.symm
  cases fails_of_apply h with
  | root h => rfl
  | lookUp h hl =>
    cases h with
    | parent ha => exact ha.document_eq hm hn
    | _ => rfl
  | addition ha => exact ha.document_eq hm hn
  | mismatch pointer value => rfl

/-! ### Failing patches -/

/-- A patch that fails does so at one of its operations, which is applied to what the operations
before it have made of the document. -/
theorem exists_failing {ops : List Operation} {target left : Value} {fault : Fault}
    (h : applyAll ops target = (.error fault, left)) :
    ∃ done op rest before, ops = done ++ op :: rest ∧ applyAll done target = (.ok (), before) ∧
      op.apply before = (.error fault, left) := by
  induction ops generalizing target with
  | nil => cases h
  | cons first later ih =>
    rw [applyAll] at h
    split at h
    · next middle hfirst =>
      obtain ⟨done, op, rest, before, rfl, hdone, hop⟩ := ih h
      refine ⟨first :: done, op, rest, before, rfl, ?_, hop⟩
      simp only [applyAll, hfirst, hdone]
    · next fault' left' hfirst =>
      cases h
      exact ⟨[], first, later, target, rfl, rfl, hfirst⟩

/-- **What a failing patch leaves behind**: the operations before the failing one have been applied,
and that operation has changed nothing exactly if it does not take anything away.  If it does, it
leaves what a removal of its source leaves. -/
theorem applyAll_error {ops : List Operation} {target left : Value} {fault : Fault}
    (h : applyAll ops target = (.error fault, left)) :
    ∃ done op rest before, ops = done ++ op :: rest ∧ applyAll done target = (.ok (), before) ∧
      op.apply before = (.error fault, left) ∧
      (left = before ↔ ∀ source, ¬ op.Takes before source) ∧
      ∀ source, op.Takes before source →
        (Operation.remove source).apply before = (.ok (), left) := by
  obtain ⟨done, op, rest, before, rfl, hdone, hop⟩ := exists_failing h
  refine ⟨done, op, rest, before, rfl, hdone, hop, ?_⟩
  refine ⟨⟨fun he source ht => ?_, fun hn => apply_error hn hop⟩, fun source ht => ?_⟩
  · exact ht.remove.2 ((ht.apply_error hop).symm.trans he)
  · rw [ht.apply_error hop]
    exact ht.remove.1

/-- The operations before a failing move stay applied, and so does its removal. -/
theorem applyAll_error_of_move :
    let target := Value.object [("a", .string "x")]
    let ops := [add "/c" (.string "y"), move "/a" "/b/d"]
    let fault := Fault.patchOperation "add" "path /b does not exist"
    let left := Value.object [("c", .string "y")]
    applyAll ops target = (.error fault, left) ∧
      ∃ done op rest before, ops = done ++ op :: rest ∧ applyAll done target = (.ok (), before) ∧
        op.apply before = (.error fault, left) ∧
        (left = before ↔ ∀ source, ¬ op.Takes before source) ∧
        ∀ source, op.Takes before source → (remove source).apply before = (.ok (), left) := by
  intro target ops fault left
  have h : applyAll ops target = (.error fault, left) := rfl
  exact ⟨h, applyAll_error h⟩

/-- A move to a place without a parent fails and loses the value moved. -/
theorem failing_move_loses_source :
    let target := Value.object [("a", .string "x")]
    applyAll [] target = (.ok (), target) ∧
      applyAll [move "/a" "/b/c"] target =
        (.error (.patchOperation "add" "path /b does not exist"), .object []) ∧
      Value.object [] ≠ target := by
  intro target
  refine ⟨rfl, rfl, ?_⟩
  simp [target]

end Operation

end Manifest
