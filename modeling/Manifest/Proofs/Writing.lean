import Manifest.Proofs.Obstacles
import Manifest.Update

/-!
# Visits that write

A rewriter writes in place of every target and turns nothing down; its steps are
`target_rewriter` at a target and `appendAt_rewriter` at the end of an array, which it comes to at
once (`traverse_rewriter_last`).

A visit that writes a value at the place `segment` below a container does what `Value.put` says
(`visit_writing`), and where nothing can be put it reports the place as missing
(`visit_writing_missing`).  A child is replaced by what is written, or dropped if that is nothing
(`visit_writing_child`).

`run_writing`, `run_writing_missing` and `run_removing` say the same of a whole document, when the
container stands at a path of it: everything but the container is left as it was.
-/

namespace Manifest

namespace Value

theorem present?_of_fits {v : Value} {segment : String} (h : v.Fits segment) :
    v.present? = some v := by
  rcases h with ⟨items, rfl, -⟩ | ⟨kind, members, rfl, -⟩ <;> rfl

theorem put_eq_none {v new : Value} {segment : String} (h : v.Fits segment)
    (hput : v.put segment new = none) :
    v.child? segment = none ∧ ∃ items n, v = array items ∧ Role.ofSegment segment = .index n := by
  rcases h with ⟨items, rfl, hs⟩ | ⟨kind, members, rfl, hs⟩
  · cases hr : Role.ofSegment segment with
    | key => exact absurd hr hs
    | any => simp [put, hr] at hput
    | index n =>
      have hn : items.length ≤ n := by simpa [put, hr] using hput
      exact ⟨by rw [child?_array_of_index hr, List.getElem?_eq_none hn], items, n, rfl, rfl⟩
  · simp [put, hs, Role.ofArray] at hput

end Value

namespace Visitor

open Value

/-- A visitor that writes in place of its targets and turns nothing down. -/
def rewriter (f : History → Value → Value) (every : Bool) : Visitor where
  every := every
  rewrite := some fun history value => .ok (f history value)

section Rewriter
variable (f : History → Value → Value) (every : Bool) (budget : Nat) (trail : Trail)
  (history : History)

theorem target_rewriter (stands : Option Value) :
    (rewriter f every).target trail stands history =
      let new := f history (stands.getD .absent)
      ⟨.ok new, new.present?,
        .sighted new trail new.present? :: .rewritten (stands.getD .absent) :: history⟩ := rfl

theorem appendAt_rewriter (items : List Value) (position : Nat) :
    ∃ inner stands,
      (rewriter f every).appendAt (fun history value => .ok (f history value)) trail items position
          history =
        let value := items[position]?.getD .absent
        let new := f history value
        ⟨.ok new, new.present?.elim (items.eraseIdx position) fun _ => items ++ [new],
          .sighted new inner stands :: .rewritten value :: history⟩ := by
  simp only [appendAt]
  cases h : (f history (items[position]?.getD .absent)).present? with
  | none => exact ⟨_, _, rfl⟩
  | some w => exact ⟨_, _, rfl⟩

/-- At a last `-` a rewriter that wants one target takes the first element. -/
theorem traverse_rewriter_last (descend : Descent) (items : List Value) :
    (rewriter f false).traverse budget descend true trail items history =
      (rewriter f false).appendAt (fun history value => .ok (f history value)) trail items 0
        history := by
  cases items with
  | nil => rfl
  | cons x rest =>
    obtain ⟨inner, stands, ha⟩ := appendAt_rewriter f false trail history (x :: rest) 0
    show (rewriter f false).appendScan (fun history value => .ok (f history value)) trail
      (rest.length + 1 + budget) (x :: rest) 0 history = _
    rw [Nat.add_right_comm]
    simp only [appendScan, List.length_cons, ha]
    rfl

end Rewriter

variable (budget : Nat) (trail : Trail) (history : History) {container : Value} {segment : String}

/-! ### Below a container -/

theorem target_writing (new : Value) (stands : Option Value) :
    ((writing new).target trail stands history).result = .ok new ∧
      ((writing new).target trail stands history).left = new.present? := by
  have ht := target_rewriter (fun _ _ => new) false trail history stands
  exact ⟨congrArg Outcome.result ht, congrArg Outcome.left ht⟩

theorem visit_writing_child (new : Value) {child : Value}
    (hc : container.child? segment = some child) :
    ((writing new).visit budget [segment] trail container history).result = .ok new ∧
      ((writing new).visit budget [segment] trail container history).left =
        some (new.present?.elim (container.dropChild segment) (container.putChild segment)) := by
  obtain ⟨frame, -, hfill, hdrop, hv⟩ := visit_child (writing new) budget trail history [] hc
  obtain ⟨hr, hl⟩ := target_writing (frame :: trail) history new (some child)
  rw [hv, visit_nil, Outcome.result_map, Outcome.left_map, hr, hl]
  refine ⟨rfl, ?_⟩
  cases new.present? with
  | none => rw [hdrop, Option.elim_none]
  | some w => rw [hfill, Option.elim_some]

/-- A last `-` appends, whatever the array holds. -/
theorem traverse_writing {new : Value} (hn : new.present? = some new) (descend : Descent)
    (items : List Value) :
    ((writing new).traverse budget descend true trail items history).result = .ok new ∧
      ((writing new).traverse budget descend true trail items history).left = items ++ [new] := by
  have ht := traverse_rewriter_last (fun _ _ => new) budget trail history descend items
  obtain ⟨inner, stands, ha⟩ :=
    appendAt_rewriter (fun _ _ => new) false trail history items 0
  have hw : (writing new).traverse budget descend true trail items history = _ := ht.trans ha
  rw [hw]
  exact ⟨rfl, by simp [hn]⟩

/-- **Writing below a container is putting the value there.** -/
theorem visit_writing {new after : Value} (hn : new.present? = some new)
    (hput : container.put segment new = some after) :
    ((writing new).visit budget [segment] trail container history).result = .ok new ∧
      ((writing new).visit budget [segment] trail container history).left = some after := by
  rcases put_cases hput with ⟨child, hc, rfl, -⟩ | ⟨items, rfl, hs, rfl, -⟩ |
    ⟨kind, members, rfl, hs, hm, rfl, -⟩
  · obtain ⟨hr, hl⟩ := visit_writing_child budget trail history new hc
    rw [hr, hl, hn, Option.elim_some]
    exact ⟨rfl, rfl⟩
  · obtain ⟨hr, hl⟩ :=
      traverse_writing budget trail history hn ((writing new).visit budget []) items
    rw [visit_any _ _ _ _ _ _ hs, Outcome.result_map, Outcome.left_map]
    exact ⟨hr, congrArg (fun l => some (array l)) hl⟩
  · obtain ⟨hr, hl⟩ := target_writing (.member kind segment members :: trail) history new none
    rw [visit_new_member _ _ _ _ hs hm rfl, Outcome.result_map, Outcome.left_map, hr, hl, hn]
    exact ⟨rfl, rfl⟩

theorem visit_writing_missing {new : Value} (hf : container.Fits segment)
    (hput : container.put segment new = none) :
    ((writing new).visit budget [segment] trail container history).result =
        .error (.notFound segment) ∧
      ((writing new).visit budget [segment] trail container history).left = some container := by
  obtain ⟨hc, items, n, rfl, hs⟩ := put_eq_none hf hput
  have hne : segment ≠ traversal := by
    rintro rfl
    cases hs
  rw [visit_missing _ _ _ _ (misfit_eq_none_iff.mpr hf) hne hc (Or.inr (Or.inr rfl))]
  exact ⟨rfl, rfl⟩

/-! ### In a document -/

section Run
variable {root : Value} {p : Path} (hp : root.at? p = some container)
include hp

theorem run_concat (v : Visitor) :
    ∃ trail : Trail, trail.path = p ∧
      (v.run budget root (p ++ [segment])).result =
        (v.visit budget [segment] trail container []).result ∧
      ∀ after, (v.visit budget [segment] trail container []).left = some after →
        (v.run budget root (p ++ [segment])).left = root.putAt p after := by
  obtain ⟨inner, hi, hres, -, hleft⟩ := visit_append v budget [] [] hp [segment]
  have hrun : v.run budget root (p ++ [segment]) =
      (v.visit budget (p ++ [segment]) [] root []).map fun left => left.getD root := by
    unfold run
    rw [if_neg (by simp)]
  rw [List.append_nil] at hres hleft
  refine ⟨inner, hi, by rw [hrun, Outcome.result_map, hres], fun after ha => ?_⟩
  rw [hrun, Outcome.left_map, hleft after ha, Option.getD_some]

theorem run_writing {new after : Value} (hn : new.present? = some new)
    (hput : container.put segment new = some after) :
    ((writing new).run budget root (p ++ [segment])).result = .ok new ∧
      ((writing new).run budget root (p ++ [segment])).left = root.putAt p after := by
  obtain ⟨trail, -, hres, hleft⟩ := run_concat budget hp (writing new)
  obtain ⟨hr, hl⟩ := visit_writing budget trail [] hn hput
  exact ⟨hres.trans hr, hleft after hl⟩

theorem run_writing_missing {new : Value} (hf : container.Fits segment)
    (hput : container.put segment new = none) :
    ((writing new).run budget root (p ++ [segment])).result = .error (.notFound segment) ∧
      ((writing new).run budget root (p ++ [segment])).left = root := by
  obtain ⟨trail, -, hres, hleft⟩ := run_concat budget hp (writing new)
  obtain ⟨hr, hl⟩ := visit_writing_missing budget trail [] hf hput
  refine ⟨hres.trans hr, ?_⟩
  rw [hleft container hl, putAt_of_at? hp]

theorem run_writing_child (new : Value) {child : Value}
    (hc : container.child? segment = some child) :
    ((writing new).run budget root (p ++ [segment])).result = .ok new ∧
      ((writing new).run budget root (p ++ [segment])).left =
        root.putAt p
          (new.present?.elim (container.dropChild segment) (container.putChild segment)) := by
  obtain ⟨trail, -, hres, hleft⟩ := run_concat budget hp (writing new)
  obtain ⟨hr, hl⟩ := visit_writing_child budget trail [] new hc
  exact ⟨hres.trans hr, hleft _ hl⟩

/-- **Removing a child drops it from its container.** -/
theorem run_removing {child : Value} (hc : container.child? segment = some child) :
    (removing.run budget root (p ++ [segment])).result = .ok .absent ∧
      (removing.run budget root (p ++ [segment])).left =
        root.putAt p (container.dropChild segment) :=
  run_writing_child budget hp .absent hc

end Run

end Visitor

end Manifest
