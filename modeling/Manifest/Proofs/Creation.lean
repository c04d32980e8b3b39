import Manifest.Proofs.Erasing
import Manifest.Proofs.Minimality

/-!
# Setting what is not there

A set at a path that does not resolve makes one container larger (`Creates`): at the container at
which the path stops, under a segment under which it has nothing, it writes the rest of the path
wrapped round the value (`exists_creates`).  Nothing but that decides the outcome of the set
(`Creates.set_eq`).

Unless the container is a record that adopts what is written, the path has one instance afterwards,
the place of the value inside what was wrapped (`Creates.instances_eq`), and whatever else is set at
the path takes the place of the value there (`Creates.exists_first`).

The main statement is `erase_created`: to remove what stands at the place written leaves the
document as it was before the set.  Only what has become a prototype is not removed again.
-/

namespace Manifest

namespace Value

/-! ### Below a container -/

section Container
variable {container after a : Value} {segment : String} {rest : Path}

theorem dropChild_slot_of_put (hc : container.child? segment = none)
    (h : container.put segment a = some after) (ha : container.adopts segment = false) :
    after.dropChild (container.slot segment) = container := by
  rcases put_cases h with ⟨child, hchild, -, -⟩ | ⟨items, rfl, -, rfl, hl⟩ |
    ⟨kind, members, rfl, -, hm, rfl, hl⟩
  · rw [hc] at hchild
    cases hchild
  · rw [hl]
    simp [dropChild, List.eraseIdx_append_of_length_le]
  · rw [hl, assign_of_not_adopts ha]
    simp only [dropChild, Fields.erase_insert hm]

/-- What takes one value under a segment takes another there, and that is to replace the first. -/
theorem put_of_put (h : container.put segment a = some after)
    (ha : container.adopts segment = false) (b : Value) :
    container.put segment b = some (after.putChild (container.slot segment) b) := by
  rcases put_cases h with ⟨child, hc, rfl, hl⟩ | ⟨items, rfl, hs, rfl, hl⟩ |
    ⟨kind, members, rfl, hs, -, rfl, hl⟩
  · rw [hl, put_of_child? hc, putChild_putChild]
  · rw [hl]
    simp [put, putChild, hs]
  · rw [hl, put_record_of_key kind members hs, assign_of_not_adopts ha, assign_of_not_adopts ha,
      putChild, Fields.insert_insert]

theorem ne_index_of_put (hc : container.child? segment = none)
    (h : container.put segment a = some after) (n : Nat) : Role.ofSegment segment ≠ .index n := by
  intro hs
  rcases put_cases h with ⟨child, hchild, -, -⟩ | ⟨-, -, hr, -⟩ | ⟨-, -, -, hr, -⟩
  · rw [hc] at hchild
    cases hchild
  · rw [hs] at hr
    cases hr
  · rw [hs] at hr
    cases hr

theorem instances_of_put (hc : container.child? segment = none)
    (hi : instances (segment :: rest) container = [])
    (h : container.put segment a = some after) (ha : container.adopts segment = false) :
    instances (segment :: rest) after =
      (instances rest a).map fun e => (container.slot segment :: e.1, e.2) := by
  rcases put_cases h with ⟨child, hchild, -, -⟩ | ⟨items, rfl, hs, rfl, hl⟩ |
    ⟨kind, members, rfl, hs, -, rfl, hl⟩
  · rw [hc] at hchild
    cases hchild
  · -- no element in front has an instance of the rest
    rw [instances_cons, branches_any items hs] at hi
    rw [hl, instances_cons, branches_any _ hs, List.zipIdx_append, List.map_append,
      List.flatMap_append, hi]
    simp
  · rw [hl, instances_of_child?]
    rw [assign_of_not_adopts ha, child?_record_of_key hs, Fields.get?_insert_self]

end Container

/-! ### Inside what is wrapped -/

/-- **The value has one place inside what is wrapped round it**, and another value in that place is
that value wrapped. -/
theorem exists_place_of_wraps {segments : Path} {value wrapped : Value}
    (h : Wraps value segments wrapped) :
    ∃ q, instances segments wrapped = [(q, value)] ∧
      ∀ other, wrap segments other = .ok (wrapped.putAt q other) := by
  induction h with
  | nil => exact ⟨[], instances_nil _, fun other => by rw [putAt_nil]; rfl⟩
  | @key segment rest inner hs _ ih =>
    obtain ⟨q, hi, hw⟩ := ih
    have hc : (object [(segment, inner)]).child? segment = some inner := by
      rw [child?_record_of_key hs, Fields.get?_cons, if_pos rfl]
    refine ⟨segment :: q, by rw [instances_of_child? hc, hi]; rfl, fun other => ?_⟩
    rw [putAt_cons hc]
    simp [wrap, hw, hs, putChild, Fields.insert]
  | @any rest inner _ ih =>
    obtain ⟨q, hi, hw⟩ := ih
    have hc : (array [inner]).child? (indexSegment 0) = some inner := by
      rw [child?_array_of_index (Role.ofSegment_indexSegment 0)]
      rfl
    refine ⟨indexSegment 0 :: q, ?_, fun other => ?_⟩
    · rw [instances_cons, branches_any _ Role.ofSegment_traversal]
      simp [hi]
    · rw [putAt_cons hc]
      simp [wrap, hw, putChild]

end Value

open Value

/-! ### Setting -/

/-- To set a value at a path makes the container at `p` larger: the rest of the path, wrapped round
the value, is written under `segment`, where there is nothing. -/
structure Creates (root : Value) (path : Path) (value : Value) (p : Path) (container : Value)
    (segment : String) (rest : Path) (wrapped after : Value) : Prop where
  path_eq : path = p ++ segment :: rest
  at_eq : root.at? p = some container
  fits : container.Fits segment
  child_eq : container.child? segment = none
  no_instances : instances path root = []
  wrap_eq : wrap rest value = .ok wrapped
  put_eq : container.put segment wrapped = some after

section Creates
variable {root value left : Value} {path written p : Path} {container : Value} {segment : String}
  {rest : Path} {wrapped after : Value}

/-- **A set at a path that does not resolve creates** what it writes. -/
theorem exists_creates (hp : path ≠ []) (he : "" ∉ path) (hr : root.resolves path ≠ .ok true)
    (h : root.set path value = (.ok written, left)) :
    ∃ p container segment rest wrapped after,
      Creates root path value p container segment rest wrapped after := by
  cases ha : root.additionFor path value with
  | error fault =>
    rw [set_of_additionFor_error ha] at h
    cases h
  | ok a =>
    obtain ⟨ho, hi, -, -⟩ := additionFor_of_not_resolves hp ha hr
    obtain ⟨hpa, hw, -⟩ := wrap_of_missing hp ha ho hi
    obtain ⟨p, segment, rest, container, rfl, hs, hc, hf, hn⟩ := exists_stop ho hi
    have hne : segment ≠ "" := by
      rintro rfl
      simp at he
    rw [hs, if_neg hne] at hpa
    rw [hpa, List.append_cons p segment rest, List.drop_left] at hw
    have haddition : root.additionFor (p ++ segment :: rest) value =
        .ok ⟨p ++ [segment], a.value⟩ := by rw [ha, ← hpa]
    cases hput : container.put segment a.value with
    | none =>
      rw [set_of_additionFor_none haddition hc hf hput] at h
      cases h
    | some after =>
      exact ⟨p, container, segment, rest, a.value, after, rfl, hc, hf, hn, hi, hw, hput⟩

namespace Creates

variable (hc : Creates root path value p container segment rest wrapped after)
include hc

theorem ne_empty (he : "" ∉ path) : segment ≠ "" := by
  rintro rfl
  rw [hc.path_eq] at he
  simp at he

theorem wraps : Wraps value rest wrapped := wraps_of_wrap hc.wrap_eq

/-- **What the set does** is to write there. -/
theorem set_eq (he : "" ∉ path) (hv : value.isDocument = true) :
    root.set path value = (.ok (p ++ [segment]), root.putAt p after) := by
  have hadd := additionFor_of_missing_child hc.at_eq hc.fits hc.child_eq
    (ne_index_of_put hc.child_eq hc.put_eq) (hc.ne_empty he) (hc.path_eq ▸ hc.no_instances) value
  rw [hc.wrap_eq] at hadd
  rw [hc.path_eq]
  exact set_of_additionFor hadd hc.at_eq (present?_of_isDocument (hc.wraps.isDocument hv)) hc.put_eq

/-- What has become a prototype is not found at its place, and stays. -/
theorem erase_of_adopts (ha : container.adopts segment = true) :
    (root.putAt p after).erase (p ++ [container.slot segment]) =
      (.ok (), root.putAt p after) := by
  rcases hc.fits with ⟨items, rfl, -⟩ | ⟨kind, members, rfl, hk⟩
  · cases ha
  have hput := hc.put_eq
  rw [put_record_of_key kind members hk, assign_of_adopts ha, Option.some.injEq] at hput
  subst hput
  have ht : traversal ∉ p ++ [segment] := by
    rw [List.mem_append, List.mem_singleton, not_or]
    exact ⟨traversal_notMem_of_at? hc.at_eq, (Role.ne_traversal_of_key hk).symm⟩
  have hat := at?_putAt hc.at_eq (record (wrapped.heirKind?.getD kind) members)
  have herase := erase_of_drops ht hat (.member hk)
  rwa [putAt_putAt hc.at_eq, Fields.erase_of_get?_none (adopts_record_iff.mp ha).2.2] at herase

section Kept
variable (ha : container.adopts segment = false)
include ha

/-- **The path has one instance afterwards**, where the value is. -/
theorem instances_eq {q : Path} (hq : instances rest wrapped = [(q, value)]) :
    instances path (root.putAt p after) = [(p ++ container.slot segment :: q, value)] := by
  have hi : instances (segment :: rest) container = [] := by
    have hn := hc.no_instances
    rwa [hc.path_eq, instances_append hc.at_eq, List.map_eq_nil_iff] at hn
  rw [hc.path_eq, instances_append (at?_putAt hc.at_eq after),
    instances_of_put hc.child_eq hi hc.put_eq ha, hq]
  rfl

theorem other {q : Path} {new : Value} (hw : wrap rest new = .ok (wrapped.putAt q new)) :
    Creates root path new p container segment rest (wrapped.putAt q new)
      (after.putChild (container.slot segment) (wrapped.putAt q new)) :=
  { hc with wrap_eq := hw, put_eq := put_of_put hc.put_eq ha _ }

/-- **Whatever is set at the path takes the place of the value**, the first to which the path leads
afterwards. -/
theorem exists_first (he : "" ∉ path) :
    ∃ q, (instances path (root.putAt p after)).head? = some (q, value) ∧
      ∀ new, new.isDocument = true →
        root.set path new = (.ok (p ++ [segment]), (root.putAt p after).putAt q new) := by
  obtain ⟨q, hq, hw⟩ := exists_place_of_wraps hc.wraps
  refine ⟨p ++ container.slot segment :: q, by rw [hc.instances_eq ha hq]; rfl, fun new hn => ?_⟩
  have hinner : (root.putAt p after).putAt (p ++ container.slot segment :: q) new =
      root.putAt p (after.putChild (container.slot segment) (wrapped.putAt q new)) := by
    rw [putAt_append_of_at? (at?_putAt hc.at_eq after), putAt_putAt hc.at_eq,
      putAt_cons (child?_slot_of_put hc.put_eq ha)]
  rw [(hc.other ha (hw new)).set_eq he hn, hinner]

theorem erase_eq :
    (root.putAt p after).erase (p ++ [container.slot segment]) = (.ok (), root) := by
  rw [erase_concat (at?_putAt hc.at_eq after) (child?_slot_of_put hc.put_eq ha),
    putAt_putAt hc.at_eq, dropChild_slot_of_put hc.child_eq hc.put_eq ha, putAt_of_at? hc.at_eq]

end Kept

end Creates

/-- **A set that creates can be undone**: if the path did not resolve, to remove what stands at the
place written, where a last `-` is the position of the element appended, succeeds and leaves the
document that there was before.  If a record has taken what was written for its prototype, the
removal succeeds as well but leaves the document as the set did. -/
theorem erase_created (hp : path ≠ []) (he : "" ∉ path) (hroot : root.isDocument = true)
    (hv : value.isDocument = true) (hr : root.resolves path ≠ .ok true)
    (h : root.set path value = (.ok written, left)) :
    ∃ place undone, root.Names written place ∧ left.erase place = (.ok (), undone) ∧
      (root.adoptsAt written = false → undone = root ∧ undone.same root = true) ∧
      (root.adoptsAt written = true → undone = left) := by
  obtain ⟨p, container, segment, rest, wrapped, after, hc⟩ := exists_creates hp he hr h
  rw [hc.set_eq he hv, Prod.mk.injEq, Except.ok.injEq] at h
  obtain ⟨rfl, rfl⟩ := h
  rw [adoptsAt_concat hc.at_eq]
  have hn := names_slot hc.at_eq hc.fits
  cases ha : container.adopts segment with
  | false => exact ⟨_, root, hn, hc.erase_eq ha, fun _ => ⟨rfl, same_refl hroot⟩, nofun⟩
  | true => exact ⟨_, _, hn, hc.erase_of_adopts ha, nofun, fun _ => rfl⟩

/-- The one element appended held all of the missing structure. -/
theorem erase_created_of_appended :
    let root := object [("a", array [object [("b", null)], null])]
    let path : Path := ["a", "-", "c", "-", "d"]
    let added := object [("c", array [object [("d", string "x")]])]
    let left := object [("a", array [object [("b", null)], null, added])]
    root.set path (string "x") = (.ok ["a", "-"], left) ∧
      ∃ place undone, root.Names ["a", "-"] place ∧ left.erase place = (.ok (), undone) ∧
        undone = root ∧ undone.same root = true := by
  intro root path added left
  have hr : root.resolves path ≠ .ok true := by decide +kernel
  have h : root.set path (string "x") = (.ok ["a", "-"], left) := by rfl
  obtain ⟨place, undone, hn, herase, hback, -⟩ :=
    erase_created (by decide) (by decide) rfl rfl hr h
  exact ⟨h, place, undone, hn, herase, hback (by decide +kernel)⟩

/-- A record without a prototype has another content, and its members do not tell. -/
theorem erase_created_of_prototype :
    let root := object [("a", object [])]
    let left := object [("a", record .bare [])]
    root.resolves ["a", "__proto__"] = .ok false ∧
      root.set ["a", "__proto__"] null = (.ok ["a", "__proto__"], left) ∧
      left.erase ["a", "__proto__"] = (.ok (), left) ∧ left.same root = false := by
  intro root left
  exact ⟨by rfl, by rfl, by rfl, by rfl⟩

end Creates

end Manifest
