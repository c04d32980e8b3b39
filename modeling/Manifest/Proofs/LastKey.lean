import Manifest.Path
import Mathlib.Data.List.Induction

/-!
# The last key of a path

Behind its last key a path addresses elements of the array that this key names: in `spec`, `list`,
`0`, `-` the last key is `list`, and `0`, `-` are an element of one of its elements.  `Path.split`
goes back over such segments one by one (`split_concat_of_element`) until it meets a key
(`split_concat_of_key`) or the first segment of the path (`split_singleton`).  So it gives the one
way to take the path apart at its last key (`split_eq_iff`); a path of elements alone is taken apart
behind its first segment.

`Path.arrayRole` looks at the same place from the front: first at the segment there, then at the one
after it.  The main statement `split_parts` says that the two agree: whenever `split` has dropped
anything, there is an array where it stopped.
-/

namespace Manifest.Path

/-! ### Going back from the end -/

section Steps
variable {path : Path} {segment : String}

theorem split_singleton (segment : String) : split [segment] = ([], segment) := by
  unfold split
  cases hs : (Role.ofSegment segment).ofArray <;> simp [hs]

theorem split_concat_of_key (h : Role.ofSegment segment = .key) :
    split (path ++ [segment]) = (path, segment) := by
  simp [split, h, Role.ofArray]

theorem split_concat_of_element (hp : path ≠ []) (h : (Role.ofSegment segment).ofArray = true) :
    split (path ++ [segment]) = split path := by
  obtain ⟨first, rest, rfl⟩ := List.exists_cons_of_ne_nil hp
  simp [split, h]

end Steps

/-! ### The parts of a path -/

/-- A path taken apart at its last key: what stands before the key, the key, and the segments behind
it, which address elements.  A segment that addresses elements counts as the key only if nothing
stands before it. -/
structure Parts (path before : Path) (key : String) (elements : Path) : Prop where
  path_eq : path = before ++ [key] ++ elements
  elements_ofArray : ∀ s ∈ elements, (Role.ofSegment s).ofArray = true
  key_or_nil : Role.ofSegment key = .key ∨ before = []

namespace Parts
variable {path before elements : Path} {key segment : String}

theorem concat (h : path.Parts before key elements)
    (hs : (Role.ofSegment segment).ofArray = true) :
    (path ++ [segment]).Parts before key (elements ++ [segment]) where
  path_eq := by rw [h.path_eq, List.append_assoc]
  elements_ofArray s hmem := by
    rcases List.mem_append.mp hmem with hmem | hmem
    · exact h.elements_ofArray s hmem
    · rwa [List.mem_singleton.mp hmem]
  key_or_nil := h.key_or_nil

theorem split_eq (h : path.Parts before key elements) : path.split = (before, key) := by
  obtain ⟨rfl, he, hk⟩ := h
  -- from the end of the path, the way `split` goes
  induction elements using List.reverseRecOn with
  | nil =>
    rw [List.append_nil]
    rcases hk with hk | rfl
    · exact split_concat_of_key hk
    · exact split_singleton key
  | append_singleton elements segment ih =>
    rw [← List.append_assoc, split_concat_of_element (by simp) (he segment (by simp))]
    exact ih fun s hs => he s (List.mem_append_left _ hs)

theorem key_eq (h : path.Parts before key elements) (hk : ∃ s ∈ path, Role.ofSegment s = .key) :
    Role.ofSegment key = .key := by
  obtain ⟨s, hs, hsk⟩ := hk
  rcases h.key_or_nil with hkey | rfl
  · exact hkey
  · rw [h.path_eq, List.nil_append, List.singleton_append] at hs
    rcases List.mem_cons.mp hs with rfl | hs
    · exact hsk
    · exact absurd hsk (Role.ofArray_iff.mp (h.elements_ofArray s hs))

theorem before_eq_nil (h : path.Parts before key elements)
    (ha : ∀ s ∈ path, (Role.ofSegment s).ofArray = true) : before = [] := by
  have hmem : key ∈ path := by simp [h.path_eq]
  exact h.key_or_nil.resolve_left (Role.ofArray_iff.mp (ha key hmem))

end Parts

/-- **A path is split at its last key**, and in no other place. -/
theorem split_eq_iff {path before : Path} {key : String} (h : path ≠ []) :
    path.split = (before, key) ↔ ∃ elements, path.Parts before key elements := by
  refine ⟨fun hs => ?_, fun ⟨_, hparts⟩ => hparts.split_eq⟩
  induction path using List.reverseRecOn with
  | nil => exact absurd rfl h
  | append_singleton path segment ih =>
    by_cases hk : Role.ofSegment segment = .key
    · obtain ⟨rfl, rfl⟩ := Prod.mk.inj ((split_concat_of_key hk).symm.trans hs)
      exact ⟨[], by simp, by simp, Or.inl hk⟩
    · rcases eq_or_ne path [] with rfl | hp
      · obtain ⟨rfl, rfl⟩ := Prod.mk.inj ((split_singleton segment).symm.trans hs)
        exact ⟨[], by simp, by simp, Or.inr rfl⟩
      · have ha := Role.ofArray_iff.mpr hk
        obtain ⟨elements, hparts⟩ := ih hp ((split_concat_of_element hp ha).symm.trans hs)
        exact ⟨elements ++ [segment], hparts.concat ha⟩

/-! ### Looking forward from a segment -/

/-- The segment behind `before` has a say first, then the one after it. -/
theorem arrayRole_append (before rest : Path) (segment : String) :
    arrayRole (before ++ [segment] ++ rest) before.length =
      if (Role.ofSegment segment).ofArray then Role.ofSegment segment
      else (rest.head?.map Role.ofSegment).getD .key := by
  unfold arrayRole
  rw [if_neg (by omega), Int.toNat_natCast, List.append_assoc, List.drop_left]
  rfl

/-- **What is split off and what it names.**  A path that is not empty is what stands before its
last key, the key, and segments that address elements.  The key is a key unless all of the path
addresses elements, and then nothing stands before it.  If any segments have been dropped, the place
of the key addresses an array: as the key does if it addresses elements itself, and else as the
first of the dropped segments. -/
theorem split_parts {path : Path} (h : path ≠ []) :
    let before := path.split.1
    let key := path.split.2
    ∃ elements : Path,
      path = before ++ [key] ++ elements ∧
      (∀ s ∈ elements, (Role.ofSegment s).ofArray = true) ∧
      ((∃ s ∈ path, Role.ofSegment s = .key) → Role.ofSegment key = .key) ∧
      ((∀ s ∈ path, (Role.ofSegment s).ofArray = true) → before = []) ∧
      ∀ first rest, elements = first :: rest →
        (path.arrayRole before.length).ofArray = true ∧
        path.arrayRole before.length =
          if (Role.ofSegment key).ofArray then Role.ofSegment key else Role.ofSegment first := by
  intro before key
  obtain ⟨elements, hparts⟩ := (split_eq_iff h).mp (rfl : path.split = (before, key))
  refine ⟨elements, hparts.path_eq, hparts.elements_ofArray, hparts.key_eq,
    hparts.before_eq_nil, ?_⟩
  rintro first rest rfl
  have hfirst : (Role.ofSegment first).ofArray = true :=
    hparts.elements_ofArray first List.mem_cons_self
  have hrole : path.arrayRole before.length =
      if (Role.ofSegment key).ofArray then Role.ofSegment key else Role.ofSegment first := by
    conv => lhs; rw [hparts.path_eq]
    exact arrayRole_append before (first :: rest) key
  refine ⟨?_, hrole⟩
  rw [hrole]
  split
  · assumption
  · exact hfirst

/-- Elements behind a key, and a path of elements alone. -/
theorem split_parts_of_runs :
    let listed : Path := ["a", "-", "list", "0", "-"]
    let bare : Path := ["-", "7", "0"]
    listed ≠ [] ∧ listed.split = (["a", "-"], "list") ∧ listed.arrayRole 2 = .index 0 ∧
      bare ≠ [] ∧ bare.split = ([], "-") ∧ bare.arrayRole 0 = .any := by
  intro listed bare
  have hl : listed ≠ [] := List.cons_ne_nil _ _
  have hb : bare ≠ [] := List.cons_ne_nil _ _
  have hlisted : listed.split = (["a", "-"], "list") := by decide +kernel
  have hbare : bare.split = ([], "-") := by decide +kernel
  obtain ⟨inList, hle, -, -, -, hlrole⟩ := split_parts hl
  obtain ⟨inRoot, hbe, -, -, -, hbrole⟩ := split_parts hb
  rw [hlisted] at hle hlrole
  rw [hbare] at hbe hbrole
  have hinList : inList = ["0", "-"] :=
    List.append_cancel_left (show ["a", "-", "list"] ++ inList = _ from hle.symm)
  have hinRoot : inRoot = ["7", "0"] :=
    List.append_cancel_left (show ["-"] ++ inRoot = _ from hbe.symm)
  have hzero : Role.ofSegment "0" = .index 0 := by decide +kernel
  refine ⟨hl, hlisted, ?_, hb, hbare, ?_⟩
  · rw [← hzero]
    exact (hlrole "0" ["-"] hinList).2
  · exact (hbrole "7" ["0"] hinRoot).2

end Manifest.Path
