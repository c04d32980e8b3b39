import Manifest.Proofs.Extension
import Manifest.Value.Identity

/-!
# Minimal additions

An addition changes as little as it can.  If the path resolves, the value is added as it is at the
first instance.  Otherwise the addition is made at a prefix of the path: behind the array in front
of the first `-` if there is one (`LeadsToArray`), and at the shortest prefix that does not resolve
if there is none.  The segments behind the prefix become one record or array each, in their order
(`Wraps`).

The main statement is `additionFor_minimal`.
-/

namespace Manifest

open Value

/-! ### Where the addition is -/

/-- The path leads to an array in front of its first `-`, which is at `p`. -/
def LeadsToArray (root : Value) (path p : Path) : Prop :=
  ∃ rest items, path = p ++ traversal :: rest ∧ traversal ∉ p ∧ root.get p = .ok (array items)

section Resolving
variable {root : Value} {path : Path}

theorem resolves_of_prefix {value : Value} {q : Path} (h : root.at? path = some value)
    (hq : q <+: path) : root.resolves q = .ok true := by
  obtain ⟨rest, rfl⟩ := hq
  rw [at?_append] at h
  obtain ⟨old, ho, -⟩ := Option.bind_eq_some_iff.mp h
  exact resolves_eq_ok_true_iff.mpr ⟨old, get_of_at? ho⟩

theorem stop_prefix (path : Path) (v : Value) : stop path v <+: path := by
  induction path generalizing v with
  | nil => exact List.prefix_rfl
  | cons segment rest ih =>
    cases hc : v.child? segment with
    | some child =>
      rw [stop_of_child? hc]
      exact List.cons_prefix_cons.mpr ⟨rfl, ih child⟩
    | none =>
      rw [stop_of_child?_none hc]
      split
      · exact List.nil_prefix
      · exact ⟨rest, rfl⟩

theorem instances_of_not_resolves (ho : obstacle "" path root = none)
    (h : root.resolves path ≠ .ok true) : instances path root = [] := by
  rw [resolves_of_no_obstacle root path ho] at h
  cases hi : instances path root with
  | nil => rfl
  | cons e rest =>
    rw [hi] at h
    exact absurd rfl h

/-- A path that leads to an array in front of its first `-`, but has no instances, stops behind that
array. -/
theorem stop_of_leadsToArray {p : Path} (h : LeadsToArray root path p) :
    stop path root = p ++ [traversal] := by
  obtain ⟨rest, items, rfl, hp, hg⟩ := h
  rw [stop_append ((get_eq_ok_iff_at? hp).mp hg), stop_of_child?_none (child?_traversal _),
    if_neg (by decide)]

/-- Any other path without instances stops at its first segment that leads nowhere. -/
theorem stop_of_not_leadsToArray (he : "" ∉ path) (ho : obstacle "" path root = none)
    (hi : instances path root = []) (h : ∀ p, ¬ LeadsToArray root path p) :
    root.resolves (stop path root) = .ok false ∧
      ∀ q, q <+: path → q.length < (stop path root).length → root.resolves q = .ok true := by
  obtain ⟨p, segment, rest, container, rfl, hs, hc, hf, hn⟩ := exists_stop ho hi
  have hne : segment ≠ "" := by
    rintro rfl
    simp at he
  have ht : segment ≠ traversal := by
    rintro rfl
    rcases hf with ⟨items, rfl, -⟩ | ⟨kind, members, -, hk⟩
    · exact h p ⟨rest, items, rfl, traversal_notMem_of_at? hc, get_of_at? hc⟩
    · cases hk
  rw [if_neg hne] at hs
  rw [hs]
  constructor
  · exact resolves_of_missing hc hf hn ht []
  · intro q hq hlt
    rw [List.length_append, List.length_singleton] at hlt
    exact resolves_of_prefix hc
      (List.prefix_of_prefix_length_le hq (List.prefix_append _ _) (by omega))

end Resolving

section Minimal
variable {root value : Value} {path : Path} {a : Addition} (hp : path ≠ [])
  (h : root.additionFor path value = .ok a)
include hp h

theorem additionFor_of_resolves (hr : root.resolves path = .ok true) :
    a.value = value ∧ ∃ first, root.findFirst path absent = .ok (some first) ∧
      a.path = if path.endsInTraversal then first.withTraversalLast else first := by
  obtain ⟨v, hv⟩ := resolves_eq_ok_true_iff.mp hr
  cases hi : instances path root with
  | nil =>
    rw [get_eq_ok_iff, hi] at hv
    cases hv
  | cons e others =>
    rw [additionFor_of_instances hp hi, Except.ok.injEq] at h
    subst h
    exact ⟨rfl, e.1, findFirst_eq_some_iff.mpr ⟨e.2, by rw [hi]; rfl⟩, rfl⟩

theorem additionFor_of_not_resolves (hr : root.resolves path ≠ .ok true) :
    obstacle "" path root = none ∧ instances path root = [] ∧ a.path = stop path root ∧
      Wraps value (path.drop a.path.length) a.value := by
  have ho : obstacle "" path root = none := by
    cases ho : obstacle "" path root with
    | none => rfl
    | some fault =>
      rw [additionFor_of_obstacle hp ho] at h
      cases h
  have hi := instances_of_not_resolves ho hr
  obtain ⟨hpa, hw, -⟩ := wrap_of_missing hp h ho hi
  exact ⟨ho, hi, hpa, wraps_of_wrap hw⟩

end Minimal

/-- **An addition is minimal.**  It has `-` at most at its end, and is made below a container of the
kind asked for.  If the path resolves, the value itself is added at the first instance, with a final
`-` of the path kept.  Otherwise the addition is at a prefix of the path, which ends behind the
array in front of the first `-` or else is the shortest that does not resolve, and what is added is
the value in one record or array for each of the other segments. -/
theorem additionFor_minimal {root value : Value} {path : Path} {a : Addition} (hp : path ≠ [])
    (he : "" ∉ path) (h : root.additionFor path value = .ok a) :
    (traversal ∉ a.path.dropLast ∧ ∃ p segment container, a.path = p ++ [segment] ∧
        root.get p = .ok container ∧ container.Fits segment) ∧
      (root.resolves path = .ok true → a.value = value ∧
        ∃ first, root.findFirst path absent = .ok (some first) ∧
          a.path = if path.endsInTraversal then first.withTraversalLast else first) ∧
      (root.resolves path ≠ .ok true → a.path <+: path ∧
        (∀ p, LeadsToArray root path p → a.path = p ++ [traversal]) ∧
        ((∀ p, ¬ LeadsToArray root path p) → root.resolves a.path = .ok false ∧
          ∀ q, q <+: path → q.length < a.path.length → root.resolves q = .ok true) ∧
        Wraps value (path.drop a.path.length) a.value) := by
  refine ⟨?_, additionFor_of_resolves hp h, fun hr => ?_⟩
  · obtain ⟨p, container, segment, hl⟩ := exists_leads hp he h
    have ht := traversal_notMem_of_at? hl.at_eq
    rw [hl.path_eq, List.dropLast_concat]
    exact ⟨ht, p, segment, container, rfl, get_of_at? hl.at_eq, hl.fits⟩
  · obtain ⟨ho, hi, hpa, hw⟩ := additionFor_of_not_resolves hp h hr
    refine ⟨?_, fun p hq => hpa.trans (stop_of_leadsToArray hq), fun hq => ?_, hw⟩
    · rw [hpa]
      exact stop_prefix path root
    · rw [hpa]
      exact stop_of_not_leadsToArray he ho hi hq

/-- An array whose elements lack the rest of the path gets one more element. -/
theorem additionFor_minimal_of_missing :
    let root := object [("a", array [object [("b", null)]])]
    let path : Path := ["a", "-", "c", "-"]
    let added := object [("c", array [null])]
    path ≠ [] ∧ "" ∉ path ∧ root.additionFor path null = .ok ⟨["a", "-"], added⟩ ∧
      LeadsToArray root path ["a"] ∧ Wraps null ["c", "-"] added := by
  intro root path added
  have hp : path ≠ [] := by decide
  have he : "" ∉ path := by decide
  have h : root.additionFor path null = .ok ⟨["a", "-"], added⟩ := by rfl
  have hr : root.resolves path ≠ .ok true := by decide +kernel
  have ha : LeadsToArray root path ["a"] :=
    ⟨["c", "-"], [object [("b", null)]], rfl, by decide, by decide +kernel⟩
  exact ⟨hp, he, h, ha, ((additionFor_minimal hp he h).2.2 hr).2.2.2⟩

end Manifest
