import Manifest.Proofs.Location
import Mathlib.Data.List.Forall2
import Mathlib.Order.Basic

/-!
# Instances of a path

A path with segments `-` stands for many places: each `-` may be any position (`Path.IsInstance`).
`Value.instances` lists the instances of a path that exist in a document, each with the value there.

The list is complete and sound (`mem_instances`): an instance is listed with a value exactly if it
leads to that value.  Its order is the lexicographic order of the positions chosen
(`pairwise_choices_instances`), so that no instance is listed twice.
-/

namespace Manifest

/-- What stands for a segment in an instance of a path: a position for `-`, itself for another. -/
def StandsFor (segment chosen : String) : Prop :=
  if segment = traversal then ∃ n, chosen = indexSegment n else chosen = segment

theorem standsFor_traversal {chosen : String} :
    StandsFor traversal chosen ↔ ∃ n, chosen = indexSegment n := by
  simp [StandsFor]

theorem standsFor_of_ne {segment chosen : String} (h : segment ≠ traversal) :
    StandsFor segment chosen ↔ chosen = segment := by
  simp [StandsFor, h]

theorem Role.ofSegment_eq_any_iff {segment : String} :
    Role.ofSegment segment = .any ↔ segment = traversal := by
  constructor
  · intro h
    by_contra hne
    unfold Role.ofSegment at h
    rw [if_neg hne] at h
    split at h <;> cases h
  · rintro rfl
    rfl

theorem Role.ne_traversal_of_key {segment : String} (h : Role.ofSegment segment = .key) :
    segment ≠ traversal := by
  rintro rfl
  cases h

theorem indexSegment_ne_empty (n : Nat) : indexSegment n ≠ "" := by
  intro h
  have hr := Role.ofSegment_indexSegment n
  rw [h] at hr
  cases hr

namespace Path

/-- The second path is the first with a position in place of every `-`. -/
def IsInstance (path q : Path) : Prop := List.Forall₂ StandsFor path q

/-- The positions that an instance of a path has in place of the segments `-`. -/
def choices : Path → Path → List Nat
  | s :: path, t :: q =>
    match Role.ofSegment s, Role.ofSegment t with
    | .any, .index n => n :: choices path q
    | _, _ => choices path q
  | _, _ => []

theorem choices_cons_of_ne {s : String} (hs : s ≠ traversal) (path q : Path) (t : String) :
    choices (s :: path) (t :: q) = choices path q := by
  have hr : Role.ofSegment s ≠ .any := fun h => hs (Role.ofSegment_eq_any_iff.mp h)
  rw [choices]
  split
  · next h _ => exact absurd h hr
  · rfl

theorem choices_traversal (path q : Path) (n : Nat) :
    choices (traversal :: path) (indexSegment n :: q) = n :: choices path q := by
  simp [choices]

theorem isInstance_iff_eq {path q : Path} (h : traversal ∉ path) :
    path.IsInstance q ↔ q = path := by
  induction path generalizing q with
  | nil =>
    rw [IsInstance, List.forall₂_nil_left_iff]
  | cons s rest ih =>
    rw [List.mem_cons, not_or] at h
    rw [IsInstance, List.forall₂_cons_left_iff]
    constructor
    · rintro ⟨t, q, ht, hq, rfl⟩
      rw [(standsFor_of_ne (Ne.symm h.1)).mp ht, (ih h.2).mp hq]
    · rintro rfl
      exact ⟨s, rest, (standsFor_of_ne (Ne.symm h.1)).mpr rfl, (ih h.2).mpr rfl, rfl⟩

theorem IsInstance.traversal_notMem {path q : Path} (h : path.IsInstance q) : traversal ∉ q := by
  induction h with
  | nil => simp
  | @cons s t rest q hst _ ih =>
    rw [List.mem_cons, not_or]
    refine ⟨?_, ih⟩
    rintro rfl
    by_cases hs : s = traversal
    · subst hs
      obtain ⟨n, hn⟩ := standsFor_traversal.mp hst
      exact Role.indexSegment_ne_traversal n hn.symm
    · exact hs ((standsFor_of_ne hs).mp hst).symm

theorem IsInstance.getElem?_eq {path q : Path} (h : path.IsInstance q) {i : Nat} {segment : String}
    (hi : path[i]? = some segment) (hs : segment ≠ traversal) : q[i]? = some segment := by
  induction h generalizing i with
  | nil => simp at hi
  | @cons s t rest q hst _ ih =>
    cases i with
    | zero =>
      rw [List.getElem?_cons_zero, Option.some.injEq] at hi ⊢
      subst hi
      exact (standsFor_of_ne hs).mp hst
    | succ i => exact ih hi

theorem IsInstance.append {p p' q q' : Path} (h : p.IsInstance q) (h' : p'.IsInstance q') :
    IsInstance (p ++ p') (q ++ q') :=
  List.rel_append h h'

theorem IsInstance.concat {path q : Path} {s : String} (h : IsInstance (path ++ [s]) q) :
    ∃ p k, q = p ++ [k] ∧ path.IsInstance p ∧ StandsFor s k := by
  induction path generalizing q with
  | nil =>
    obtain ⟨k, rest, hk, hr, rfl⟩ := List.forall₂_cons_left_iff.mp h
    rw [List.forall₂_nil_left_iff] at hr
    subst hr
    exact ⟨[], k, rfl, List.Forall₂.nil, hk⟩
  | cons t path ih =>
    obtain ⟨c, rest, hc, hr, rfl⟩ := List.forall₂_cons_left_iff.mp h
    obtain ⟨p, k, rfl, hp, hk⟩ := ih hr
    exact ⟨c :: p, k, rfl, List.Forall₂.cons hc hp, hk⟩

theorem IsInstance.empty_notMem {path q : Path} (h : path.IsInstance q) (he : "" ∉ path) :
    "" ∉ q := by
  induction h with
  | nil => simp
  | @cons s t rest q hst _ ih =>
    rw [List.mem_cons, not_or] at he ⊢
    refine ⟨?_, ih he.2⟩
    by_cases hs : s = traversal
    · subst hs
      obtain ⟨n, rfl⟩ := standsFor_traversal.mp hst
      exact Ne.symm (indexSegment_ne_empty n)
    · rw [(standsFor_of_ne hs).mp hst]
      exact he.1

end Path

namespace Value

/-! ### Enumeration -/

/-- The children that a segment leads to, each under the segment that names it. -/
def branches (v : Value) (segment : String) : List (String × Value) :=
  match v, Role.ofSegment segment with
  | array items, .any => items.zipIdx.map fun e => (indexSegment e.2, e.1)
  | v, _ => (v.child? segment).toList.map fun child => (segment, child)

theorem branches_any (items : List Value) {segment : String} (h : Role.ofSegment segment = .any) :
    (array items).branches segment = items.zipIdx.map fun e => (indexSegment e.2, e.1) := by
  simp only [branches, h]

theorem branches_of_child? {v child : Value} {segment : String}
    (h : v.child? segment = some child) : v.branches segment = [(segment, child)] := by
  rcases container_of_child? h with ⟨items, n, rfl, hs, -⟩ | ⟨kind, members, rfl, hs, -⟩
  · simp only [branches, hs, h, Option.toList_some, List.map_cons, List.map_nil]
  · simp only [branches, h, Option.toList_some, List.map_cons, List.map_nil]

theorem branches_of_child?_none {v : Value} {segment : String} (h : v.child? segment = none)
    (hs : Role.ofSegment segment ≠ .any ∨ v.items? = none) : v.branches segment = [] := by
  unfold branches
  split
  · next items hr =>
    rcases hs with hs | hs
    · exact absurd hr hs
    · cases hs
  · rw [h]
    rfl

theorem mem_branches {v child : Value} {segment chosen : String} :
    (chosen, child) ∈ v.branches segment ↔
      StandsFor segment chosen ∧ v.child? chosen = some child := by
  by_cases hs : segment = traversal
  · subst hs
    rw [standsFor_traversal]
    cases v with
    | array items =>
      rw [branches_any items Role.ofSegment_traversal]
      constructor
      · intro h
        obtain ⟨⟨x, n⟩, hx, he⟩ := List.mem_map.mp h
        obtain ⟨rfl, rfl⟩ := Prod.mk.inj he
        rw [List.mem_zipIdx_iff_getElem?] at hx
        exact ⟨⟨n, rfl⟩, by rw [child?_array_of_index (Role.ofSegment_indexSegment n), hx]⟩
      · rintro ⟨⟨n, rfl⟩, hc⟩
        rw [child?_array_of_index (Role.ofSegment_indexSegment n)] at hc
        exact List.mem_map.mpr ⟨(child, n), List.mem_zipIdx_iff_getElem?.mpr hc, rfl⟩
    | record kind members =>
      rw [branches_of_child?_none (child?_traversal _) (Or.inr rfl)]
      refine ⟨fun h => by simp at h, ?_⟩
      rintro ⟨⟨n, rfl⟩, hc⟩
      simp [child?, Role.ofArray] at hc
    | _ => simp [branches, child?]
  · have hr : Role.ofSegment segment ≠ .any := fun h => hs (Role.ofSegment_eq_any_iff.mp h)
    rw [standsFor_of_ne hs]
    cases hc : v.child? segment with
    | none =>
      rw [branches_of_child?_none hc (Or.inl hr)]
      refine ⟨fun h => by simp at h, ?_⟩
      rintro ⟨rfl, h⟩
      rw [hc] at h
      cases h
    | some c =>
      rw [branches_of_child? hc, List.mem_singleton, Prod.mk.injEq]
      constructor
      · rintro ⟨rfl, rfl⟩
        exact ⟨rfl, hc⟩
      · rintro ⟨rfl, h⟩
        rw [hc] at h
        exact ⟨rfl, (Option.some.inj h).symm⟩

/-- The instances of a path that exist in a document, each with the value there. -/
def instances : Path → Value → List (Path × Value)
  | [], v => [([], v)]
  | segment :: rest, v =>
    (v.branches segment).flatMap fun b => (instances rest b.2).map fun e => (b.1 :: e.1, e.2)

@[simp] theorem instances_nil (v : Value) : instances [] v = [([], v)] := rfl

theorem instances_cons (segment : String) (rest : Path) (v : Value) :
    instances (segment :: rest) v =
      (v.branches segment).flatMap fun b => (instances rest b.2).map fun e => (b.1 :: e.1, e.2) :=
  rfl

theorem instances_of_child? {v child : Value} {segment : String}
    (h : v.child? segment = some child) (rest : Path) :
    instances (segment :: rest) v =
      (instances rest child).map fun e => (segment :: e.1, e.2) := by
  rw [instances_cons, branches_of_child? h, List.flatMap_singleton]

/-- **The enumeration is sound and complete.** -/
theorem mem_instances {path q : Path} {v value : Value} :
    (q, value) ∈ instances path v ↔ path.IsInstance q ∧ v.at? q = some value := by
  induction path generalizing v q with
  | nil =>
    rw [instances_nil, List.mem_singleton, Prod.mk.injEq, Path.IsInstance,
      List.forall₂_nil_left_iff]
    constructor
    · rintro ⟨rfl, rfl⟩
      exact ⟨rfl, at?_nil _⟩
    · rintro ⟨rfl, h⟩
      exact ⟨rfl, by simpa using h.symm⟩
  | cons segment rest ih =>
    rw [instances_cons, List.mem_flatMap, Path.IsInstance, List.forall₂_cons_left_iff]
    constructor
    · rintro ⟨⟨chosen, child⟩, hb, he⟩
      obtain ⟨⟨q, y⟩, hq, heq⟩ := List.mem_map.mp he
      obtain ⟨rfl, rfl⟩ := Prod.mk.inj heq
      obtain ⟨hst, hc⟩ := mem_branches.mp hb
      obtain ⟨hi, ha⟩ := ih.mp hq
      exact ⟨⟨chosen, q, hst, hi, rfl⟩, at?_cons_eq_some_iff.mpr ⟨child, hc, ha⟩⟩
    · rintro ⟨⟨chosen, q, hst, hi, rfl⟩, ha⟩
      obtain ⟨child, hc, hr⟩ := at?_cons_eq_some_iff.mp ha
      exact ⟨(chosen, child), mem_branches.mpr ⟨hst, hc⟩,
        List.mem_map.mpr ⟨(q, value), ih.mpr ⟨hi, hr⟩, rfl⟩⟩

theorem instances_of_notMem {path : Path} (h : traversal ∉ path) (v : Value) :
    instances path v = (v.at? path).toList.map fun value => (path, value) := by
  induction path generalizing v with
  | nil => simp
  | cons segment rest ih =>
    rw [List.mem_cons, not_or] at h
    have hr : Role.ofSegment segment ≠ .any :=
      fun hs => h.1 (Role.ofSegment_eq_any_iff.mp hs).symm
    cases hc : v.child? segment with
    | none => rw [instances_cons, branches_of_child?_none hc (Or.inl hr), at?_cons, hc]; rfl
    | some child =>
      rw [instances_of_child? hc, ih h.2, at?_cons, hc, Option.bind_some, List.map_map]
      rfl

/-! ### Order -/

theorem pairwise_snd_zipIdx (items : List Value) : items.zipIdx.Pairwise fun a b => a.2 < b.2 := by
  rw [List.pairwise_iff_getElem]
  intro i j hi hj hij
  simpa using hij

/-- What is listed in order below every child is listed in order below the children that a segment
leads to. -/
theorem pairwise_choices_branches {α : Type} {rest : Path} {below : Value → List (Path × α)}
    (h : ∀ child, (below child).Pairwise fun e f => rest.choices e.1 < rest.choices f.1)
    (segment : String) (v : Value) :
    ((v.branches segment).flatMap fun b => (below b.2).map fun e => (b.1 :: e.1, e.2)).Pairwise
      fun e f => Path.choices (segment :: rest) e.1 < Path.choices (segment :: rest) f.1 := by
  by_cases hs : segment = traversal ∧ ∃ items, v = array items
  · obtain ⟨rfl, items, rfl⟩ := hs
    rw [branches_any items Role.ofSegment_traversal, List.flatMap_map, List.pairwise_flatMap]
    constructor
    · -- below one element the rest of the path decides
      intro b _
      rw [List.pairwise_map]
      refine (h b.1).imp fun h => ?_
      rw [Path.choices_traversal, Path.choices_traversal]
      exact List.cons_lt_cons_iff.mpr (Or.inr ⟨rfl, h⟩)
    · refine (pairwise_snd_zipIdx items).imp fun hlt e he f hf => ?_
      obtain ⟨e, -, rfl⟩ := List.mem_map.mp he
      obtain ⟨f, -, rfl⟩ := List.mem_map.mp hf
      rw [Path.choices_traversal, Path.choices_traversal]
      exact List.cons_lt_cons_iff.mpr (Or.inl hlt)
  · cases hc : v.child? segment with
    | none =>
      have hb : v.branches segment = [] := by
        refine branches_of_child?_none hc ?_
        by_cases hr : Role.ofSegment segment = .any
        · right
          cases v with
          | array items => exact absurd ⟨Role.ofSegment_eq_any_iff.mp hr, items, rfl⟩ hs
          | _ => rfl
        · exact Or.inl hr
      rw [hb]
      exact List.Pairwise.nil
    | some child =>
      have hne : segment ≠ traversal := by
        rintro rfl
        simp at hc
      rw [branches_of_child? hc, List.flatMap_singleton, List.pairwise_map]
      refine (h child).imp fun h => ?_
      rwa [Path.choices_cons_of_ne hne, Path.choices_cons_of_ne hne]

/-- **The instances are listed in the order of the positions chosen.** -/
theorem pairwise_choices_instances (path : Path) (v : Value) :
    (instances path v).Pairwise fun e f => path.choices e.1 < path.choices f.1 := by
  induction path generalizing v with
  | nil => simp
  | cons segment rest ih => exact pairwise_choices_branches ih segment v

end Value

end Manifest
