import Manifest.Proofs.FanOut
import Manifest.Proofs.Patch

/-!
# Removing what is found

To remove is to rewrite a target by nothing (`erase_of_targets`); without a target a removal fails
(`erase_of_no_targets`).  Besides the places where something stands there are places where a removal
finds nothing and is content with that, a missing last key and the first place of an empty array
(`Value.IsGap`).

So `erase` and `findFirst` can take different elements of an array.  The main statement is
`erase_first_found`: what is found first is removed exactly if no gap is ahead of it; if one is,
nothing is removed at all, as in `erase_misses_first_found`.
-/

namespace Manifest

namespace Value

/-- A place that a path can stand for and at which nothing stands, although its container is there:
a last key that its record does not have, or the first place of an empty array for a last `-`. -/
def IsGap (root : Value) (path q : Path) : Prop :=
  path.IsInstance q ∧
    (root.LacksMember q ∨ path.getLast? = some traversal ∧ root.StartsArray q)

theorem none_mem_targets_iff_isGap {root : Value} {path q : Path} :
    (q, none) ∈ targets false path root ↔ root.IsGap path q := by
  rw [mem_targets]
  simp [IsGap]

theorem erase_of_targets {root : Value} {path : Path} (hp : path ≠ []) {e : Path × Option Value}
    {others : List (Path × Option Value)} (h : targets false path root = e :: others) :
    root.erase path = (.ok (), root.writeAt e.1 none) := by
  have hr := Visitor.run_rewrites (fun _ _ => absent) false 0 root path
  have hl := Visitor.run_rewriter_left (fun _ => absent) false 0 hp (fun _ _ _ => rfl) root
  obtain ⟨r, hok⟩ := hr.succeeded (by simp [h])
  have hleft : (Visitor.removing.run 0 root path).left = root.writeAt e.1 none := by
    rw [h] at hl
    exact hl
  have hres : (Visitor.removing.run 0 root path).result = .ok r := hok
  simp only [erase, hres, hleft]
  rfl

theorem erase_of_no_targets {root : Value} {path : Path} (h : targets false path root = []) :
    ∃ fault, root.erase path = (.error fault, root) := by
  have hr := Visitor.run_rewrites (fun _ _ => absent) false 0 root path
  obtain ⟨hleft, fault, hres, -⟩ := hr.failed h
  have hleft' : (Visitor.removing.run 0 root path).left = root := hleft
  have hres' : (Visitor.removing.run 0 root path).result = .error fault := hres
  refine ⟨fault, ?_⟩
  simp only [erase, hres', hleft']
  rfl

theorem erase_of_at?_eq {root value : Value} {q : Path} (hq : q ≠ [])
    (h : root.at? q = some value) : root.erase q = (.ok (), root.writeAt q none) := by
  rcases List.eq_nil_or_concat' q with rfl | ⟨p, segment, rfl⟩
  · exact absurd rfl hq
  obtain ⟨container, ha, hc⟩ := at?_concat_eq_some_iff.mp h
  rw [erase_concat ha hc, writeAt_concat ha]
  rfl

theorem dropChild_of_opening? {every : Bool} {v : Value} {segment chosen : String}
    (h : v.opening? every segment = some chosen) : v.dropChild chosen = v := by
  rcases (opening?_eq_some_iff every).mp h with
    ⟨kind, members, rfl, -, hm, rfl⟩ | ⟨rfl, -, -, rfl⟩
  · simp only [dropChild, Fields.erase_of_get?_none hm]
  · simp [dropChild]

theorem writeAt_none_of_isGap {root : Value} {path q : Path} (h : root.IsGap path q) :
    root.writeAt q none = root := by
  obtain ⟨front, p, segment, chosen, container, -, rfl, -, ha, ho⟩ :=
    (none_mem_targets false).mp (none_mem_targets_iff_isGap.mpr h)
  rw [writeAt_concat ha, Option.elim_none, dropChild_of_opening? ho, putAt_of_at? ha]

theorem exists_targets_of_findFirst {root : Value} {path q : Path}
    (h : root.findFirst path absent = .ok (some q)) :
    ∃ value gaps others, targets false path root = gaps ++ (q, some value) :: others ∧
      ∀ e ∈ gaps, e.2 = none := by
  obtain ⟨value, hv⟩ := findFirst_eq_some_iff.mp h
  obtain ⟨instances', hi⟩ := List.head?_eq_some_iff.mp hv
  rw [← filterMap_targets false, List.filterMap_eq_cons_iff] at hi
  obtain ⟨gaps, ⟨q', stands⟩, others, ht, hgaps, he, -⟩ := hi
  obtain ⟨value', rfl, hq⟩ := Option.map_eq_some_iff.mp he
  obtain ⟨rfl, rfl⟩ := Prod.mk.inj hq
  exact ⟨value', gaps, others, ht, fun e he => Option.map_eq_none_iff.mp (hgaps e he)⟩

/-! ### What is found and what is removed -/

/-- **What is found first is removed exactly if no gap is ahead of it.**  The removal succeeds in
any case; if a gap is ahead, it leaves the document as it was. -/
theorem erase_first_found {root : Value} {path q : Path} (hp : path ≠ [])
    (h : root.findFirst path absent = .ok (some q)) :
    (root.erase path).1 = .ok () ∧
      ((root.erase path).2 = (root.erase q).2 ↔
        ∀ gap, root.IsGap path gap → ¬ path.choices gap < path.choices q) ∧
      ∀ gap, root.IsGap path gap → path.choices gap < path.choices q →
        (root.erase path).2 = root := by
  obtain ⟨value, gaps, others, ht, hgaps⟩ := exists_targets_of_findFirst h
  have hpw := pairwise_choices_targets false path root
  have hq : (q, some value) ∈ targets false path root := by simp [ht]
  have hqne : q ≠ [] := ne_nil_of_mem_targets false hp hq
  have hat : root.at? q = some value := ((some_mem_targets false).mp hq).2
  have herase := erase_of_at?_eq hqne hat
  rw [ht] at hpw
  cases gaps with
  | nil =>
    -- every gap is behind what is found
    have hno : ∀ gap, root.IsGap path gap → ¬ path.choices gap < path.choices q := by
      intro gap hgap hlt
      have hmem := none_mem_targets_iff_isGap.mpr hgap
      rw [ht, List.nil_append, List.mem_cons] at hmem
      rcases hmem with he | he
      · cases he
      · exact List.lt_irrefl _ (List.lt_trans ((List.pairwise_cons.mp hpw).1 _ he) hlt)
    rw [erase_of_targets hp ht, herase]
    exact ⟨rfl, iff_of_true rfl hno, fun gap hgap hlt => absurd hlt (hno gap hgap)⟩
  | cons first gaps =>
    obtain ⟨gap, stands⟩ := first
    obtain rfl : stands = none := hgaps _ List.mem_cons_self
    have hgap : root.IsGap path gap := none_mem_targets_iff_isGap.mp (by simp [ht])
    have hlt : path.choices gap < path.choices q :=
      (List.pairwise_cons.mp hpw).1 (q, some value) (by simp)
    have hroot : root.erase path = (.ok (), root) := by
      rw [erase_of_targets hp ht, writeAt_none_of_isGap hgap]
    rw [hroot]
    refine ⟨rfl, iff_of_false ?_ fun hno => hno gap hgap hlt, fun _ _ _ => rfl⟩
    exact fun he => (erase_of_at? hat hqne).2 he.symm

/-- A gap behind what is found does no harm. -/
theorem erase_first_found_ahead_of_gap :
    let root := object [("a", array [string "x", object [("b", string "y")], object []])]
    let path : Path := ["a", "-", "b"]
    let left := object [("a", array [string "x", object [], object []])]
    path ≠ [] ∧ root.findFirst path absent = .ok (some ["a", "1", "b"]) ∧
      (root.erase ["a", "1", "b"]).2 = left ∧ (root.erase path).2 = left ∧
      ∀ gap, root.IsGap path gap → ¬ path.choices gap < path.choices ["a", "1", "b"] := by
  intro root path left
  have hp : path ≠ [] := by decide
  have h : root.findFirst path absent = .ok (some ["a", "1", "b"]) := by decide +kernel
  have hq : (root.erase ["a", "1", "b"]).2 = left := by rfl
  have he : (root.erase path).2 = left := by rfl
  exact ⟨hp, h, hq, he, (erase_first_found hp h).2.1.mp (he.trans hq.symm)⟩

/-- An element without the last key is content with the removal, although the key is found in the
element behind it. -/
theorem erase_misses_first_found :
    let root := object [("a", array [object [], object [("b", string "x")]])]
    let path : Path := ["a", "-", "b"]
    path ≠ [] ∧ root.findFirst path absent = .ok (some ["a", "1", "b"]) ∧
      root.erase path = (.ok (), root) ∧
      root.erase ["a", "1", "b"] = (.ok (), object [("a", array [object [], object []])]) ∧
      (root.erase path).2 ≠ (root.erase ["a", "1", "b"]).2 := by
  intro root path
  have hpath : root.erase path = (.ok (), root) := by rfl
  have hq : root.erase ["a", "1", "b"] =
      (.ok (), object [("a", array [object [], object []])]) := by rfl
  refine ⟨by decide, by decide +kernel, hpath, hq, ?_⟩
  rw [hpath, hq]
  simp [root]

end Value

end Manifest
