import Manifest.Proofs.Instances
import Manifest.Visit.Lemmas

/-!
# Obstacles

What a visit can meet at a node on its way is one of four things (`Value.Step`): the segment does
not fit the node, it leads to a child, it is a `-` at an array, or it fits but nothing is there.
`Visitor.visit_misfit`, `visit_child`, `visit_any` and `visit_missing` say how the visit goes on.

A segment that does not fit stops every visit if no `-` is in front of it (`Value.obstacle`): the
visit fails with that fault, sees nothing and leaves the document as it is (`visit_of_obstacle`).
Behind a `-` such faults only make the visit pass over the element.
-/

namespace Manifest

/-- The faults that say that a path does not fit the document. -/
def Fault.isMisfit : Fault → Bool
  | notTraversable _ => true
  | notAnArray _ => true
  | missingArrayTraversal _ => true
  | _ => false

theorem Fault.isStructural_of_isMisfit {fault : Fault} (h : fault.isMisfit = true) :
    fault.isStructural = true ∧ fault.isNotFound = false := by
  cases fault <;> simp_all [isMisfit, isStructural, isNotFound]

namespace Value

/-- What is wrong with a segment at a node that stands under `key`, if it does not fit the node. -/
def misfit (key : String) (v : Value) (segment : String) : Option Fault :=
  match v with
  | array _ =>
    if Role.ofSegment segment = .key then some (.missingArrayTraversal key) else none
  | record _ _ => if Role.ofSegment segment = .key then none else some (.notAnArray key)
  | absent => some (.notTraversable (key ++ " is nil"))
  | vacant => some (.notTraversable (key ++ " is nil"))
  | null => some (.notTraversable (key ++ " is nil"))
  | v => some (.notTraversable (key ++ " is " ++ v.typeName))

/-- The node is a container of the kind that the segment asks for. -/
def Fits (v : Value) (segment : String) : Prop :=
  (∃ items, v = array items ∧ Role.ofSegment segment ≠ .key) ∨
    ∃ kind members, v = record kind members ∧ Role.ofSegment segment = .key

/-- The fault that a path meets at a node that stands under `key`, before its first `-`. -/
def obstacle : String → Path → Value → Option Fault
  | _, [], _ => none
  | key, segment :: rest, v =>
    match v.misfit key segment with
    | some fault => some fault
    | none => (v.child? segment).bind fun child => obstacle segment rest child

/-- What a segment meets at a node that stands under `key`. -/
inductive Step (key : String) (v : Value) (segment : String) : Prop where
  /-- The segment does not fit the node. -/
  | misfit (fault : Fault) (h : v.misfit key segment = some fault)
  /-- It leads to a child. -/
  | child (child : Value) (hm : v.misfit key segment = none) (hc : v.child? segment = some child)
  /-- It is a `-` at an array. -/
  | spread (items : List Value) (hv : v = array items) (hs : segment = traversal)
  /-- It fits the node, but nothing is there. -/
  | missing (hm : v.misfit key segment = none) (hs : segment ≠ traversal)
      (hc : v.child? segment = none)

theorem misfit_of_child? {v child : Value} {segment : String} (h : v.child? segment = some child)
    (key : String) : v.misfit key segment = none := by
  rcases container_of_child? h with ⟨items, n, rfl, hs, -⟩ | ⟨kind, members, rfl, hs, -⟩
  · simp [misfit, hs]
  · simp [misfit, hs]

theorem child?_of_misfit {key : String} {v : Value} {segment : String} {fault : Fault}
    (h : v.misfit key segment = some fault) : v.child? segment = none := by
  cases hc : v.child? segment with
  | none => rfl
  | some child =>
    rw [misfit_of_child? hc] at h
    cases h

/-- Every node offers one of the four. -/
theorem step (key : String) (v : Value) (segment : String) : Step key v segment := by
  cases hm : v.misfit key segment with
  | some fault => exact .misfit fault hm
  | none =>
    cases hc : v.child? segment with
    | some child => exact .child child hm hc
    | none =>
      by_cases hs : segment = traversal
      · subst hs
        cases v with
        | array items => exact .spread items rfl rfl
        | record kind members => simp [misfit] at hm
        | _ => simp [misfit] at hm
      · exact .missing hm hs hc

theorem misfit_eq_none_iff {key : String} {v : Value} {segment : String} :
    v.misfit key segment = none ↔ v.Fits segment := by
  unfold Fits
  cases v <;> simp [misfit]

theorem fits_of_child? {v child : Value} {segment : String} (h : v.child? segment = some child) :
    v.Fits segment :=
  misfit_eq_none_iff.mp (misfit_of_child? h "")

theorem isMisfit_of_misfit {key : String} {v : Value} {segment : String} {fault : Fault}
    (h : v.misfit key segment = some fault) : fault.isMisfit = true := by
  unfold misfit at h
  split at h
  · split at h <;> cases h
    rfl
  · split at h <;> cases h
    rfl
  all_goals
    cases h
    rfl

theorem isStructural_of_misfit {key : String} {v : Value} {segment : String} {fault : Fault}
    (h : v.misfit key segment = some fault) :
    fault.isStructural = true ∧ fault.isNotFound = false :=
  Fault.isStructural_of_isMisfit (isMisfit_of_misfit h)

theorem obstacle_of_misfit {key : String} {v : Value} {segment : String} {fault : Fault}
    (h : v.misfit key segment = some fault) (rest : Path) :
    obstacle key (segment :: rest) v = some fault := by
  simp only [obstacle, h]

theorem obstacle_of_child? {v child : Value} {segment : String} (h : v.child? segment = some child)
    (key : String) (rest : Path) :
    obstacle key (segment :: rest) v = obstacle segment rest child := by
  simp only [obstacle, misfit_of_child? h, h, Option.bind_some]

theorem isMisfit_of_obstacle {key : String} {path : Path} {v : Value} {fault : Fault}
    (h : obstacle key path v = some fault) : fault.isMisfit = true := by
  induction path generalizing key v with
  | nil => cases h
  | cons segment rest ih =>
    cases v.step key segment with
    | misfit fault' hm =>
      rw [obstacle_of_misfit hm] at h
      cases h
      exact isMisfit_of_misfit hm
    | child child hm hc =>
      rw [obstacle_of_child? hc] at h
      exact ih h
    | spread items hv hs =>
      subst hv hs
      simp [obstacle, misfit] at h
    | missing hm hs hc => simp [obstacle, hm, hc] at h

theorem isStructural_of_obstacle {key : String} {path : Path} {v : Value} {fault : Fault}
    (h : obstacle key path v = some fault) :
    fault.isStructural = true ∧ fault.isNotFound = false :=
  Fault.isStructural_of_isMisfit (isMisfit_of_obstacle h)

theorem branches_of_misfit {key : String} {v : Value} {segment : String} {fault : Fault}
    (h : v.misfit key segment = some fault) : v.branches segment = [] := by
  refine branches_of_child?_none (child?_of_misfit h) ?_
  by_cases hr : Role.ofSegment segment = .any
  · right
    cases v with
    | array items => simp [misfit, hr] at h
    | _ => rfl
  · exact Or.inl hr

/-- A path with an obstacle has no instances. -/
theorem instances_of_obstacle {key : String} {path : Path} {v : Value} {fault : Fault}
    (h : obstacle key path v = some fault) : instances path v = [] := by
  induction path generalizing key v with
  | nil => cases h
  | cons segment rest ih =>
    cases v.step key segment with
    | misfit fault' hm =>
      rw [instances_cons, branches_of_misfit hm, List.flatMap_nil]
    | child child hm hc =>
      rw [obstacle_of_child? hc] at h
      rw [instances_of_child? hc, ih h, List.map_nil]
    | spread items hv hs =>
      subst hv hs
      simp [obstacle, misfit] at h
    | missing hm hs hc => simp [obstacle, hm, hc] at h

end Value

/-! ### Visits that are stopped -/

namespace Visitor

open Value

variable (v : Visitor) (budget : Nat) (trail : Trail) (history : History)

theorem visit_misfit {segment : String} {node : Value} {fault : Fault} (rest : Path)
    (h : node.misfit trail.key segment = some fault) :
    v.visit budget (segment :: rest) trail node history = .fail fault (some node) history := by
  cases node with
  | array items =>
    by_cases hs : Role.ofSegment segment = .key
    · rw [visit_array_key v budget trail history rest items hs]
      simp only [misfit, hs, if_true, Option.some.injEq] at h
      rw [h]
    · simp [misfit, hs] at h
  | record kind members =>
    by_cases hs : Role.ofSegment segment = .key
    · simp [misfit, hs] at h
    · rw [visit_record_array v budget trail history rest kind members hs]
      simp only [misfit, hs, if_false, Option.some.injEq] at h
      rw [h]
  | _ =>
    simp only [misfit, Option.some.injEq] at h
    simp only [visit, h]

theorem visit_missing {segment : String} {node : Value} {rest : Path}
    (hm : node.misfit trail.key segment = none) (hs : segment ≠ traversal)
    (hc : node.child? segment = none)
    (hv : rest ≠ [] ∨ v.rewrite = none ∨ node.members? = none) :
    v.visit budget (segment :: rest) trail node history =
      .miss trail.path segment (some node) history := by
  rcases misfit_eq_none_iff.mp hm with ⟨items, rfl, hr⟩ | ⟨kind, members, rfl, hr⟩
  · cases hi : Role.ofSegment segment with
    | key => exact absurd hi hr
    | any => exact absurd (Role.ofSegment_eq_any_iff.mp hi) hs
    | index n =>
      rw [child?_array_of_index hi] at hc
      exact visit_missing_index v budget trail history rest hi hc
  · rw [child?_record_of_key hr] at hc
    refine visit_missing_member v budget trail history hr hc ?_
    rcases hv with hv | hv | hv
    · exact Or.inl hv
    · exact Or.inr hv
    · cases hv

/-- Where a segment fits and nothing is there, either a visit misses or it writes a new member. -/
theorem missing_cases {key segment : String} {node : Value} (hm : node.misfit key segment = none)
    (hc : node.child? segment = none) (rest : Path) :
    (rest ≠ [] ∨ v.rewrite = none ∨ node.members? = none) ∨
      ∃ kind members, rest = [] ∧ v.rewrite.isSome = true ∧ node = record kind members ∧
        Role.ofSegment segment = .key ∧ Fields.get? members segment = none := by
  by_cases hmiss : rest ≠ [] ∨ v.rewrite = none ∨ node.members? = none
  · exact Or.inl hmiss
  · rw [not_or, not_or, not_not] at hmiss
    obtain ⟨rfl, hr, hmembers⟩ := hmiss
    rcases misfit_eq_none_iff.mp hm with ⟨items, rfl, -⟩ | ⟨kind, members, rfl, hk⟩
    · exact absurd rfl hmembers
    · rw [child?_record_of_key hk] at hc
      exact Or.inr ⟨kind, members, rfl, Option.isSome_iff_ne_none.mpr hr, rfl, hk, hc⟩

/-- **An obstacle stops every visit** before it sees or changes anything. -/
theorem visit_of_obstacle {path : Path} {node : Value} {fault : Fault}
    (h : obstacle trail.key path node = some fault) :
    v.visit budget path trail node history = .fail fault (some node) history := by
  induction path generalizing trail node with
  | nil => cases h
  | cons segment rest ih =>
    cases node.step trail.key segment with
    | misfit fault' hm =>
      rw [obstacle_of_misfit hm] at h
      cases h
      exact visit_misfit v budget trail history rest hm
    | child child hm hc =>
      rw [obstacle_of_child? hc] at h
      obtain ⟨frame, hseg, hfill, -, hv⟩ := visit_child v budget trail history rest hc
      have hkey : Trail.key (frame :: trail) = segment := hseg
      rw [hv, ih (frame :: trail) (by rwa [hkey])]
      have hf : frame.fill (some child) = node := by rw [hfill, putChild_of_child? hc]
      simp only [Outcome.map, Outcome.fail, hf]
    | spread items hv hs =>
      subst hv hs
      simp [obstacle, misfit] at h
    | missing hm hs hc => simp [obstacle, hm, hc] at h

end Visitor

end Manifest
