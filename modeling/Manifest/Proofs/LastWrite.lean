import Manifest.Proofs.Creation

/-!
# Setting again

A path that does not end in `-` and resolves is set at its first instance (`set_of_first`).  What is
put there does not make another instance the first one (`head?_instances_putAt`): two instances of
one path are the same or lie apart from each other, so that those in front lead nowhere afterwards
as they did before.

So after a set the path leads to what was written, whether it was created or overwritten, and
whatever is set then takes its place (`exists_first_of_set`), unless a record has taken it for its
prototype.  The main statement is `set_last_write_wins`.
-/

namespace Manifest

/-! ### Instances of one path -/

theorem StandsFor.eq {segment s t : String} (hs : StandsFor segment s) (ht : StandsFor segment t)
    (h : normalSegment s = normalSegment t) : s = t := by
  by_cases hseg : segment = traversal
  · subst hseg
    obtain ⟨m, rfl⟩ := standsFor_traversal.mp hs
    obtain ⟨n, rfl⟩ := standsFor_traversal.mp ht
    rwa [normalSegment_of_index (Role.ofSegment_indexSegment m),
      normalSegment_of_index (Role.ofSegment_indexSegment n)] at h
  · rw [(standsFor_of_ne hseg).mp hs, (standsFor_of_ne hseg).mp ht]

/-- Two instances of a path are the same or lie apart. -/
theorem Path.IsInstance.eq_of_covers {path q r : Path} (hq : path.IsInstance q)
    (hr : path.IsInstance r) (h : q.Covers r) : q = r := by
  induction hq generalizing r with
  | nil => exact (List.forall₂_nil_left_iff.mp hr).symm
  | @cons segment s path q hs _ ih =>
    obtain ⟨t, rest, ht, hrest, rfl⟩ := List.forall₂_cons_left_iff.mp hr
    obtain ⟨hst, hcov⟩ := Path.cons_covers_cons.mp h
    rw [hs.eq ht hst, ih hrest hcov]

namespace Value

section First
variable {root old value : Value} {path q : Path}

theorem choices_lt_of_first (h : (instances path root).head? = some (q, old)) {e : Path × Value}
    (he : e ∈ instances path root) (hne : e ≠ (q, old)) : path.choices q < path.choices e.1 := by
  have hpw := pairwise_choices_instances path root
  obtain ⟨others, hi⟩ := List.head?_eq_some_iff.mp h
  rw [hi] at hpw he
  exact (List.pairwise_cons.mp hpw).1 e ((List.mem_cons.mp he).resolve_left hne)

theorem first_of_choices_lt (hq : (q, value) ∈ instances path root)
    (h : ∀ e ∈ instances path root, e ≠ (q, value) → path.choices q < path.choices e.1) :
    (instances path root).head? = some (q, value) := by
  have hpw := pairwise_choices_instances path root
  cases hi : instances path root with
  | nil =>
    rw [hi] at hq
    cases hq
  | cons first others =>
    rw [hi] at hpw hq h
    by_contra hne
    have hfirst : first ≠ (q, value) := fun he => hne (by rw [he]; rfl)
    have hmem : (q, value) ∈ others := (List.mem_cons.mp hq).resolve_left (Ne.symm hfirst)
    exact List.lt_irrefl _ (List.lt_trans (h first List.mem_cons_self hfirst)
      ((List.pairwise_cons.mp hpw).1 _ hmem))

/-- **What is put at the first instance of a path is the first one of the path then.** -/
theorem head?_instances_putAt (h : (instances path root).head? = some (q, old)) (new : Value) :
    (instances path (root.putAt q new)).head? = some (q, new) := by
  obtain ⟨hq, hat⟩ := mem_instances.mp (List.mem_of_head? h)
  have hnew := at?_putAt hat new
  refine first_of_choices_lt (mem_instances.mpr ⟨hq, hnew⟩) ?_
  rintro ⟨r, x⟩ he hne
  obtain ⟨hr, hx⟩ := mem_instances.mp he
  have hrq : r ≠ q := by
    rintro rfl
    rw [hnew, Option.some.injEq] at hx
    exact hne (by rw [hx])
  -- the other instance lies apart, so it was there before
  rw [at?_putAt_of_apart hat (fun hc => hrq (hr.eq_of_covers hq hc))
    (fun hc => hrq (hq.eq_of_covers hr hc).symm)] at hx
  exact choices_lt_of_first h (mem_instances.mpr ⟨hr, hx⟩) fun he => hrq (Prod.mk.inj he).1

/-- **A path that resolves is set at its first instance**, if it does not end in `-`. -/
theorem set_of_first (hp : path ≠ []) (ht : path.endsInTraversal = false)
    (h : (instances path root).head? = some (q, old)) (hv : value.isDocument = true) :
    root.set path value = (.ok q, root.putAt q value) := by
  obtain ⟨hq, hat⟩ := mem_instances.mp (List.mem_of_head? h)
  obtain ⟨others, hi⟩ := List.head?_eq_some_iff.mp h
  have hadd := additionFor_of_instances hp hi value
  rw [ht] at hadd
  rcases List.eq_nil_or_concat' q with rfl | ⟨p, segment, rfl⟩
  · exact absurd (List.forall₂_nil_right_iff.mp hq) hp
  obtain ⟨container, ha, hc⟩ := at?_concat_eq_some_iff.mp hat
  rw [set_of_additionFor hadd ha (present?_of_isDocument hv) (put_of_child? hc value),
    putAt_append_of_at? ha, putAt_cons hc, putAt_nil]

end First

/-! ### After a set -/

section Set
variable {root value : Value} {path : Path} (hp : path ≠ []) (he : "" ∉ path)
  (ht : path.endsInTraversal = false)
include hp he ht

/-- **After a set the path leads to the value first**, and whatever else had been set at the path
would be in its place. -/
theorem exists_first_of_set {written : Path} {left : Value} (hv : value.isDocument = true)
    (h : root.set path value = (.ok written, left)) (ha : root.adoptsAt written = false) :
    ∃ q, (instances path left).head? = some (q, value) ∧
      ∀ new, new.isDocument = true → root.set path new = (.ok written, left.putAt q new) := by
  by_cases hr : root.resolves path = .ok true
  · obtain ⟨old, hg⟩ := resolves_eq_ok_true_iff.mp hr
    obtain ⟨⟨q, x⟩, hi, -⟩ := Option.map_eq_some_iff.mp (get_eq_ok_iff.mp hg)
    have hat := (mem_instances.mp (List.mem_of_head? hi)).2
    rw [set_of_first hp ht hi hv, Prod.mk.injEq, Except.ok.injEq] at h
    obtain ⟨rfl, rfl⟩ := h
    refine ⟨q, head?_instances_putAt hi value, fun new hn => ?_⟩
    rw [set_of_first hp ht hi hn, putAt_putAt hat]
  · obtain ⟨p, container, segment, rest, wrapped, after, hc⟩ := exists_creates hp he hr h
    rw [hc.set_eq he hv, Prod.mk.injEq, Except.ok.injEq] at h
    obtain ⟨rfl, rfl⟩ := h
    rw [adoptsAt_concat hc.at_eq] at ha
    exact hc.exists_first ha he

/-- **The last write wins.**  After a set that succeeds, to set the path again succeeds and leaves
the document that the second set alone would have left, and so nothing is changed if it is the same
value; this leaves out what a record takes for its prototype.  To set what the path leads to leaves
the document as it is. -/
theorem set_last_write_wins (hroot : root.isDocument = true) :
    (∀ first second written left, first.isDocument = true → second.isDocument = true →
        root.set path first = (.ok written, left) → root.adoptsAt written = false →
          ∃ again after, left.set path second = (.ok again, after) ∧
            root.set path second = (.ok written, after)) ∧
      (∀ value written left, value.isDocument = true →
        root.set path value = (.ok written, left) → root.adoptsAt written = false →
          ∃ again, left.set path value = (.ok again, left)) ∧
      ∀ value, root.get path = .ok value →
        ∃ written, root.set path value = (.ok written, root) := by
  refine ⟨fun first second written left hf hs h ha => ?_, fun value written left hv h ha => ?_,
    fun value hg => ?_⟩
  · obtain ⟨q, hi, hall⟩ := exists_first_of_set hp he ht hf h ha
    exact ⟨q, left.putAt q second, set_of_first hp ht hi hs, hall second hs⟩
  · obtain ⟨q, hi, -⟩ := exists_first_of_set hp he ht hv h ha
    have hat := (mem_instances.mp (List.mem_of_head? hi)).2
    refine ⟨q, ?_⟩
    rw [set_of_first hp ht hi hv, putAt_of_at? hat]
  · obtain ⟨⟨q, x⟩, hi, rfl⟩ := Option.map_eq_some_iff.mp (get_eq_ok_iff.mp hg)
    have hat := (mem_instances.mp (List.mem_of_head? hi)).2
    refine ⟨q, ?_⟩
    rw [set_of_first hp ht hi (isDocument_of_at? hroot hat), putAt_of_at? hat]

end Set

/-- The first set appends an element, the second one overwrites inside of it. -/
theorem set_last_write_wins_in_new_element :
    let root := object [("a", array [object [("b", null)], array []])]
    let path : Path := ["a", "-", "c", "-", "d"]
    let leaves (value : Value) := object [("a", array [object [("b", null)], array [],
      object [("c", array [object [("d", value)]])]])]
    root.set path (string "x") = (.ok ["a", "-"], leaves (string "x")) ∧
      (leaves (string "x")).set path (string "y") =
        (.ok ["a", "2", "c", "0", "d"], leaves (string "y")) ∧
      root.set path (string "y") = (.ok ["a", "-"], leaves (string "y")) := by
  intro root path leaves
  have h : root.set path (string "x") = (.ok ["a", "-"], leaves (string "x")) := by rfl
  have hagain : (leaves (string "x")).set path (string "y") =
      (.ok ["a", "2", "c", "0", "d"], leaves (string "y")) := by rfl
  obtain ⟨again, after, hsecond, hroot⟩ :=
    (@set_last_write_wins root path (by decide) (by decide) (by decide +kernel) rfl).1
      (string "x") (string "y") _ _ rfl rfl h (by decide +kernel)
  obtain ⟨-, rfl⟩ := Prod.mk.inj (hagain.symm.trans hsecond)
  exact ⟨h, hagain, hroot⟩

/-- A record that has lost its prototype takes a member where it took a prototype before. -/
theorem set_again_for_prototype :
    let root := object [("a", object [])]
    let path : Path := ["a", "__proto__"]
    let bared := object [("a", record .bare [])]
    root.set path null = (.ok path, bared) ∧
      bared.set path (string "x") =
        (.ok path, object [("a", record .bare [("__proto__", string "x")])]) ∧
      root.set path (string "x") = (.ok path, root) := by
  intro root path bared
  exact ⟨by rfl, by rfl, by rfl⟩

end Value

end Manifest
