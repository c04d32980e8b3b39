import Manifest.Proofs.Search

/-!
# Targets

A visit that rewrites has more targets than the instances of its path: a last key that a record does
not have is one (`Value.LacksMember`), and so is, for a visitor that wants one target only, the
first place of an array without elements (`Value.StartsArray`).

`Value.targets` lists them, each with what stands there, if something does.  The list is complete
and sound (`mem_targets`), its order is that of the positions chosen (`pairwise_choices_targets`),
and the instances of the path are those of its places where something stands
(`filterMap_targets`).
-/

namespace Manifest

/-- The place is a member that its record does not have. -/
def Value.LacksMember (root : Value) (q : Path) : Prop :=
  ∃ p key kind members, q = p ++ [key] ∧ root.get p = .ok (.record kind members) ∧
    Role.ofSegment key = .key ∧ Fields.get? members key = none

/-- The place is the first of an array that has no elements. -/
def Value.StartsArray (root : Value) (q : Path) : Prop :=
  ∃ p, q = p ++ [indexSegment 0] ∧ root.get p = .ok (.array [])

namespace Value

/-! ### Enumeration -/

/-- The segment under which a visitor that rewrites finds a place for what it writes, although
nothing stands there.  With `every` it wants all targets. -/
def opening? (every : Bool) (v : Value) (segment : String) : Option String :=
  match v with
  | record _ members =>
    if Role.ofSegment segment = .key ∧ (Fields.get? members segment).isNone then some segment
    else none
  | array [] => if segment = traversal ∧ every = false then some (indexSegment 0) else none
  | _ => none

/-- The targets of a visitor that rewrites, each with what stands there. -/
def targets (every : Bool) : Path → Value → List (Path × Option Value)
  | [], v => [([], some v)]
  | segment :: rest, v =>
    ((v.branches segment).flatMap fun b =>
        (targets every rest b.2).map fun e => (b.1 :: e.1, e.2)) ++
      if rest.isEmpty then (v.opening? every segment).toList.map fun s => ([s], none) else []

variable (every : Bool)

@[simp] theorem targets_nil (v : Value) : targets every [] v = [([], some v)] := rfl

theorem targets_cons (segment : String) (rest : Path) (v : Value) :
    targets every (segment :: rest) v =
      ((v.branches segment).flatMap fun b =>
          (targets every rest b.2).map fun e => (b.1 :: e.1, e.2)) ++
        if rest.isEmpty then (v.opening? every segment).toList.map fun s => ([s], none) else [] :=
  rfl

theorem opening?_of_child? {v child : Value} {segment : String}
    (h : v.child? segment = some child) : v.opening? every segment = none := by
  rcases container_of_child? h with ⟨items, n, rfl, hs, hn⟩ | ⟨kind, members, rfl, hs, hm⟩
  · have hne : segment ≠ traversal := by
      rintro rfl
      cases hs
    cases items <;> simp [opening?, hne]
  · simp [opening?, hm]

theorem targets_of_child? {v child : Value} {segment : String} (h : v.child? segment = some child)
    (rest : Path) :
    targets every (segment :: rest) v =
      (targets every rest child).map fun e => (segment :: e.1, e.2) := by
  rw [targets_cons, branches_of_child? h, opening?_of_child? every h, List.flatMap_singleton]
  simp

theorem targets_of_at? {v value : Value} {place : Path}
    (h : v.at? place = some value) : targets every place v = [(place, some value)] := by
  induction place generalizing v with
  | nil =>
    obtain rfl : v = value := by simpa using h
    rfl
  | cons segment rest ih =>
    obtain ⟨child, hc, hr⟩ := at?_cons_eq_some_iff.mp h
    rw [targets_of_child? every hc, ih hr]
    rfl

/-- The targets below the elements of an array, the first of which stands at a position. -/
def targetsBelow (rest : Path) (items : List Value) (position : Nat) :
    List (Path × Option Value) :=
  (items.zipIdx position).flatMap fun e =>
    (targets every rest e.1).map fun b => (indexSegment e.2 :: b.1, b.2)

@[simp] theorem targetsBelow_nil (rest : Path) (position : Nat) :
    targetsBelow every rest [] position = [] := rfl

theorem targetsBelow_cons (rest : Path) (x : Value) (items : List Value) (position : Nat) :
    targetsBelow every rest (x :: items) position =
      ((targets every rest x).map fun b => (indexSegment position :: b.1, b.2)) ++
        targetsBelow every rest items (position + 1) := by
  rw [targetsBelow, List.zipIdx_cons, List.flatMap_cons]
  rfl

theorem targets_traversal (rest : Path) (items : List Value) :
    targets every (traversal :: rest) (array items) =
      targetsBelow every rest items 0 ++
        if rest = [] ∧ items = [] ∧ every = false then [([indexSegment 0], none)] else [] := by
  rw [targets_cons, branches_any items Role.ofSegment_traversal, List.flatMap_map]
  congr 1
  cases rest <;> cases items <;> cases every <;> simp [opening?]

theorem opening?_eq_some_iff {v : Value} {segment chosen : String} :
    v.opening? every segment = some chosen ↔
      (∃ kind members, v = record kind members ∧ Role.ofSegment segment = .key ∧
        Fields.get? members segment = none ∧ chosen = segment) ∨
      v = array [] ∧ segment = traversal ∧ every = false ∧ chosen = indexSegment 0 := by
  cases v with
  | record kind members =>
    have hc : segment = chosen ↔ chosen = segment := eq_comm
    simp [opening?, hc, and_assoc]
  | array items =>
    have hc : indexSegment 0 = chosen ↔ chosen = indexSegment 0 := eq_comm
    cases items <;> simp [opening?, hc, and_assoc]
  | _ => simp [opening?]

theorem branches_of_opening? {v : Value} {segment chosen : String}
    (h : v.opening? every segment = some chosen) : v.branches segment = [] := by
  rcases (opening?_eq_some_iff every).mp h with
    ⟨kind, members, rfl, hs, hm, -⟩ | ⟨rfl, rfl, -, -⟩
  · exact branches_of_child?_none (by rw [child?_record_of_key hs, hm]) (Or.inr rfl)
  · exact branches_any [] Role.ofSegment_traversal

theorem targets_of_misfit {key : String} {v : Value} {segment : String} {fault : Fault}
    (h : v.misfit key segment = some fault) (rest : Path) :
    targets every (segment :: rest) v = [] := by
  have ho : v.opening? every segment = none := by
    cases v with
    | array items =>
      have hne : segment ≠ traversal := by
        rintro rfl
        simp [misfit] at h
      cases items <;> simp [opening?, hne]
    | record kind members =>
      have hs : Role.ofSegment segment ≠ .key := by
        intro hs
        simp [misfit, hs] at h
      simp [opening?, hs]
    | _ => rfl
  rw [targets_cons, branches_of_misfit h, ho]
  simp

/-- Where a segment fits and nothing is there, a missing last key is the only target there can
be. -/
theorem targets_of_missing {key : String} {v : Value} {segment : String}
    (hm : v.misfit key segment = none) (hs : segment ≠ traversal) (hc : v.child? segment = none)
    (rest : Path) :
    (∃ kind members, rest = [] ∧ v = record kind members ∧ Role.ofSegment segment = .key ∧
        Fields.get? members segment = none ∧
        targets every (segment :: rest) v = [([segment], none)]) ∨
      (rest ≠ [] ∨ v.members? = none) ∧ targets every (segment :: rest) v = [] := by
  have hr : Role.ofSegment segment ≠ .any := fun h => hs (Role.ofSegment_eq_any_iff.mp h)
  rw [targets_cons, branches_of_child?_none hc (Or.inl hr), List.flatMap_nil, List.nil_append]
  cases rest with
  | cons s rest => exact Or.inr ⟨Or.inl (by simp), rfl⟩
  | nil =>
    rcases misfit_eq_none_iff.mp hm with ⟨items, rfl, hk⟩ | ⟨kind, members, rfl, hk⟩
    · refine Or.inr ⟨Or.inr rfl, ?_⟩
      cases items <;> simp [opening?, hs]
    · have hg : Fields.get? members segment = none := by rwa [child?_record_of_key hk] at hc
      exact Or.inl ⟨kind, members, rfl, rfl, hk, hg, by simp [opening?, hk, hg]⟩

/-- The instances of a path are the targets at which something stands. -/
theorem filterMap_targets (path : Path) (v : Value) :
    (targets every path v).filterMap (fun e => e.2.map fun value => (e.1, value)) =
      instances path v := by
  induction path generalizing v with
  | nil => rfl
  | cons segment rest ih =>
    have hopen : (if rest.isEmpty then
        (v.opening? every segment).toList.map fun s => (([s] : Path), (none : Option Value))
        else []).filterMap (fun e => e.2.map fun value => (e.1, value)) = [] := by
      split <;> cases v.opening? every segment <;> rfl
    rw [targets_cons, List.filterMap_append, hopen, List.append_nil, List.filterMap_flatMap,
      instances_cons]
    refine List.flatMap_congr fun b _ => ?_
    rw [← ih b.2, List.filterMap_map, List.map_filterMap]
    refine List.filterMap_congr fun e _ => ?_
    simp [Function.comp_def]

/-! ### What is listed -/

theorem some_mem_targets {path q : Path} {v value : Value} :
    (q, some value) ∈ targets every path v ↔ path.IsInstance q ∧ v.at? q = some value := by
  rw [← mem_instances, ← filterMap_targets every path v, List.mem_filterMap]
  constructor
  · exact fun h => ⟨_, h, rfl⟩
  · rintro ⟨⟨q', stands⟩, h, he⟩
    cases stands with
    | none => cases he
    | some value' =>
      cases he
      exact h

theorem none_mem_targets {path q : Path} {v : Value} :
    (q, none) ∈ targets every path v ↔
      ∃ (front p : Path) (segment chosen : String) (container : Value),
        path = front ++ [segment] ∧ q = p ++ [chosen] ∧ front.IsInstance p ∧
          v.at? p = some container ∧ container.opening? every segment = some chosen := by
  induction path generalizing v q with
  | nil => simp
  | cons segment rest ih =>
    rw [targets_cons, List.mem_append, List.mem_flatMap]
    constructor
    · rintro (⟨⟨chosen, child⟩, hb, he⟩ | h)
      · obtain ⟨⟨q, stands⟩, hq, heq⟩ := List.mem_map.mp he
        obtain ⟨rfl, rfl⟩ := Prod.mk.inj heq
        obtain ⟨hst, hc⟩ := mem_branches.mp hb
        obtain ⟨front, p, last, k, container, rfl, rfl, hp, ha, ho⟩ := ih.mp hq
        exact ⟨segment :: front, chosen :: p, last, k, container, rfl, rfl,
          List.Forall₂.cons hst hp, at?_cons_eq_some_iff.mpr ⟨child, hc, ha⟩, ho⟩
      · cases rest with
        | cons s rest => simp at h
        | nil =>
          obtain ⟨k, ho, rfl⟩ : ∃ k, v.opening? every segment = some k ∧ [k] = q := by
            simpa using h
          exact ⟨[], [], segment, k, v, rfl, rfl, List.Forall₂.nil, at?_nil v, ho⟩
    · rintro ⟨front, p, last, k, container, hpath, rfl, hp, ha, ho⟩
      cases front with
      | nil =>
        obtain ⟨rfl, rfl⟩ := List.cons.inj hpath
        obtain rfl : p = [] := List.forall₂_nil_left_iff.mp hp
        obtain rfl : v = container := by simpa using ha
        right
        simp [ho]
      | cons s front =>
        obtain ⟨rfl, rfl⟩ := List.cons.inj hpath
        obtain ⟨chosen, p, hst, hfront, rfl⟩ := List.forall₂_cons_left_iff.mp hp
        obtain ⟨child, hc, ha⟩ := at?_cons_eq_some_iff.mp ha
        exact Or.inl ⟨(chosen, child), mem_branches.mpr ⟨hst, hc⟩, List.mem_map.mpr
          ⟨(p ++ [k], none), ih.mpr ⟨front, p, last, k, container, rfl, rfl, hfront, ha, ho⟩, rfl⟩⟩

section Gaps
variable {root : Value} {p : Path} (hp : traversal ∉ p)
include hp

theorem lacksMember_concat {key : String} :
    root.LacksMember (p ++ [key]) ↔ ∃ kind members, root.at? p = some (record kind members) ∧
      Role.ofSegment key = .key ∧ Fields.get? members key = none := by
  simp only [← get_eq_ok_iff_at? hp]
  constructor
  · rintro ⟨p', key', kind, members, he, hg, hs, hm⟩
    obtain ⟨rfl, hk⟩ := List.append_inj' he rfl
    obtain rfl : key = key' := by simpa using hk
    exact ⟨kind, members, hg, hs, hm⟩
  · rintro ⟨kind, members, hg, hs, hm⟩
    exact ⟨p, key, kind, members, rfl, hg, hs, hm⟩

theorem startsArray_concat {chosen : String} :
    root.StartsArray (p ++ [chosen]) ↔ root.at? p = some (array []) ∧ chosen = indexSegment 0 := by
  simp only [← get_eq_ok_iff_at? hp]
  constructor
  · rintro ⟨p', he, hg⟩
    obtain ⟨rfl, hk⟩ := List.append_inj' he rfl
    exact ⟨hg, by simpa using hk⟩
  · rintro ⟨hg, rfl⟩
    exact ⟨p, rfl, hg⟩

end Gaps

/-- **What opens below a container** is a member that a record does not have, or the first place of
an empty array. -/
theorem opens_iff {root : Value} {p : Path} {segment chosen : String} (hp : traversal ∉ p)
    (hst : StandsFor segment chosen) :
    (∃ container, root.at? p = some container ∧
        container.opening? every segment = some chosen) ↔
      root.LacksMember (p ++ [chosen]) ∨
        every = false ∧ segment = traversal ∧ root.StartsArray (p ++ [chosen]) := by
  rw [lacksMember_concat hp, startsArray_concat hp]
  simp only [opening?_eq_some_iff]
  constructor
  · rintro ⟨container, ha, ⟨kind, members, rfl, hs, hm, rfl⟩ | ⟨rfl, hs, he, hc⟩⟩
    · exact Or.inl ⟨kind, members, ha, hs, hm⟩
    · exact Or.inr ⟨he, hs, ha, hc⟩
  · rintro (⟨kind, members, ha, hs, hm⟩ | ⟨he, hs, ha, hc⟩)
    · -- a key is no index, so it stands for itself
      have hne : segment ≠ traversal := by
        rintro rfl
        obtain ⟨n, rfl⟩ := standsFor_traversal.mp hst
        simp at hs
      obtain rfl := (standsFor_of_ne hne).mp hst
      exact ⟨_, ha, Or.inl ⟨kind, members, rfl, hs, hm, rfl⟩⟩
    · exact ⟨_, ha, Or.inr ⟨rfl, hs, he, hc⟩⟩

theorem standsFor_of_opening? {v : Value} {segment chosen : String}
    (h : v.opening? every segment = some chosen) : StandsFor segment chosen := by
  rcases (opening?_eq_some_iff every).mp h with ⟨-, -, -, hs, -, rfl⟩ | ⟨-, rfl, -, rfl⟩
  · exact (standsFor_of_ne (Role.ne_traversal_of_key hs)).mpr rfl
  · exact standsFor_traversal.mpr ⟨0, rfl⟩

/-- **The list of targets is sound and complete.**  What stands at an instance of the path is a
target, and so is a last key that its record does not have; for a visitor that wants one target, the
first place of an empty array at the end of the path is one more. -/
theorem mem_targets {path q : Path} {root : Value} {stands : Option Value} :
    (q, stands) ∈ targets every path root ↔ path.IsInstance q ∧
      match stands with
      | some value => root.get q = .ok value
      | none => root.LacksMember q ∨
          every = false ∧ path.getLast? = some traversal ∧ root.StartsArray q := by
  cases stands with
  | some value =>
    rw [some_mem_targets]
    exact and_congr_right fun h => (get_eq_ok_iff_at? h.traversal_notMem).symm
  | none =>
    rw [none_mem_targets]
    constructor
    · rintro ⟨front, p, segment, chosen, container, rfl, rfl, hp, ha, ho⟩
      have hst := standsFor_of_opening? every ho
      rw [List.getLast?_concat, Option.some.injEq]
      exact ⟨hp.append (List.Forall₂.cons hst List.Forall₂.nil),
        (opens_iff every hp.traversal_notMem hst).mp ⟨container, ha, ho⟩⟩
    · rintro ⟨hq, hgap⟩
      rcases List.eq_nil_or_concat' path with rfl | ⟨front, segment, rfl⟩
      · obtain rfl : q = [] := List.forall₂_nil_left_iff.mp hq
        rcases hgap with ⟨p, key, kind, members, he, -⟩ | ⟨-, -, p, he, -⟩ <;> simp at he
      obtain ⟨p, chosen, rfl, hp, hst⟩ := hq.concat
      rw [List.getLast?_concat, Option.some.injEq] at hgap
      obtain ⟨container, ha, ho⟩ := (opens_iff every hp.traversal_notMem hst).mpr hgap
      exact ⟨front, p, segment, chosen, container, rfl, rfl, hp, ha, ho⟩

theorem ne_nil_of_mem_targets {path : Path} {v : Value} {e : Path × Option Value} (hp : path ≠ [])
    (he : e ∈ targets every path v) : e.1 ≠ [] := by
  have hi : path.IsInstance e.1 := ((mem_targets every).mp he).1
  intro hn
  rw [hn, Path.IsInstance, List.forall₂_nil_right_iff] at hi
  exact hp hi

/-- **The targets are listed in the order of the positions chosen.** -/
theorem pairwise_choices_targets (path : Path) (v : Value) :
    (targets every path v).Pairwise fun e f => path.choices e.1 < path.choices f.1 := by
  induction path generalizing v with
  | nil => simp
  | cons segment rest ih =>
    have hb := pairwise_choices_branches ih segment v
    rw [targets_cons]
    cases ho : v.opening? every segment with
    | none => simpa using hb
    | some chosen =>
      rw [branches_of_opening? every ho]
      split <;> simp

end Value

end Manifest
