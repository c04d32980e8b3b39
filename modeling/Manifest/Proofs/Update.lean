import Manifest.Proofs.Extension
import Manifest.Proofs.Writing

/-!
# Setting values

`Value.set` fails and changes nothing, or it writes the addition for its path at one place
(`set_of_put`, `set_of_put_eq_none`).  The main statement is `set_reaches_or_keeps`: after a set
that succeeds the document has changed at the place written only, and the path leads to the value,
unless a record has taken what was written for its prototype.
-/

namespace Manifest

/-- A document has changed at one place only: every other place that it had is still there with its
value, and every place that it did not have is the one changed or below it. -/
structure ChangedOnlyAt (before after : Value) (place : Path) : Prop where
  kept : ∀ (q : Path) (value : Value), traversal ∉ q → before.get q = .ok value →
    ¬ q.Covers place → ¬ place.Covers q → after.get q = .ok value
  added : ∀ q : Path, traversal ∉ q → after.resolves q = .ok true →
    before.resolves q ≠ .ok true → place.Covers q

/-- The place that a written path names: a last `-` stands for the position behind the last element
that the array had. -/
inductive Value.Names (before : Value) : Path → Path → Prop
  | place {written : Path} : traversal ∉ written → before.Names written written
  | appended {parent : Path} {items : List Value} : before.get parent = .ok (.array items) →
      before.Names (parent ++ [traversal]) (parent ++ [indexSegment items.length])

namespace Value

section Put
variable {root container after : Value} {p : Path} {segment : String}
  (hp : root.at? p = some container)
include hp

theorem changedOnlyAt_of_agreeBut (h : container.AgreeBut after segment) :
    ChangedOnlyAt root (root.putAt p after) (p ++ [segment]) where
  kept := by
    intro q value hq hg hqp hpq
    rw [get_eq_ok_iff_at? hq] at hg ⊢
    rw [at?_putAt_of_agreeBut hp h hqp hpq, hg]
  added := by
    intro q hq hafter hbefore
    obtain ⟨value, hv⟩ := resolves_eq_ok_true_iff.mp hafter
    rw [get_eq_ok_iff_at? hq] at hv
    refine covers_of_new hp h hv ?_
    rw [Option.eq_none_iff_forall_not_mem]
    intro old hold
    exact hbefore (resolves_eq_ok_true_iff.mpr ⟨old, get_of_at? hold⟩)

theorem changedOnlyAt_putAt {new : Value} (hput : container.put segment new = some after) :
    ChangedOnlyAt root (root.putAt p after) (p ++ [container.slot segment]) :=
  changedOnlyAt_of_agreeBut hp (agreeBut_put hput)

theorem changedOnlyAt_place (new : Value) : ChangedOnlyAt root (root.putAt p new) p := by
  rcases List.eq_nil_or_concat' p with rfl | ⟨above, last, rfl⟩
  · exact ⟨fun q _ _ _ _ hcov => absurd (Path.nil_covers q) hcov, fun q _ _ _ => Path.nil_covers q⟩
  · obtain ⟨outer, ha, hc⟩ := at?_concat_eq_some_iff.mp hp
    rw [putAt_append_of_at? ha, putAt_cons hc, putAt_nil]
    exact changedOnlyAt_of_agreeBut ha (agreeBut_putChild hc new)

theorem names_slot (hf : container.Fits segment) :
    root.Names (p ++ [segment]) (p ++ [container.slot segment]) := by
  by_cases hs : segment = traversal
  · subst hs
    rcases hf with ⟨items, rfl, -⟩ | ⟨kind, members, -, hk⟩
    · rw [slot, if_pos Role.ofSegment_traversal]
      exact Names.appended (get_of_at? hp)
    · cases hk
  · have hslot : container.slot segment = segment :=
      (standsFor_of_ne hs).mp (standsFor_slot hf)
    rw [hslot]
    refine Names.place ?_
    rw [List.mem_append, not_or, List.mem_singleton]
    exact ⟨traversal_notMem_of_at? hp, Ne.symm hs⟩

end Put

/-! ### Setting -/

section Set
variable {root value container : Value} {path p : Path} {segment : String} {a : Addition}

theorem set_of_additionFor_error {fault : Fault} (h : root.additionFor path value = .error fault) :
    root.set path value = (.error fault, root) := by
  simp only [set, h]

theorem set_of_additionFor {new after : Value}
    (h : root.additionFor path value = .ok ⟨p ++ [segment], new⟩) (hp : root.at? p = some container)
    (hn : new.present? = some new) (hput : container.put segment new = some after) :
    root.set path value = (.ok (p ++ [segment]), root.putAt p after) := by
  obtain ⟨hr, hleft⟩ := Visitor.run_writing 0 hp hn hput
  simp only [set, h]
  rw [hr, hleft]
  rfl

theorem set_of_additionFor_none {new : Value}
    (h : root.additionFor path value = .ok ⟨p ++ [segment], new⟩) (hp : root.at? p = some container)
    (hf : container.Fits segment) (hput : container.put segment new = none) :
    root.set path value = (.error (.notFound segment), root) := by
  obtain ⟨hr, hleft⟩ := Visitor.run_writing_missing 0 hp hf hput
  simp only [set, h]
  rw [hr, hleft]
  rfl

theorem set_of_completes {after : Value} (h : root.additionFor path value = .ok a)
    (hc : Completes root path value a p container segment) (hv : value.isDocument = true)
    (hput : container.put segment a.value = some after) :
    root.set path value = (.ok a.path, root.putAt p after) := by
  have hn := present?_of_isDocument (hc.document hv)
  have ha : a = ⟨p ++ [segment], a.value⟩ := by rw [← hc.path_eq]
  rw [hc.path_eq, set_of_additionFor (ha ▸ h) hc.at_eq hn hput]

theorem set_of_completes_none (h : root.additionFor path value = .ok a)
    (hc : Completes root path value a p container segment)
    (hput : container.put segment a.value = none) :
    root.set path value = (.error (.notFound segment), root) := by
  have ha : a = ⟨p ++ [segment], a.value⟩ := by rw [← hc.path_eq]
  exact set_of_additionFor_none (ha ▸ h) hc.at_eq hc.fits hput

theorem set_of_put {after : Value} (h : root.additionFor path value = .ok a)
    (hl : Leads root path value a p container segment) (hv : value.isDocument = true)
    (hput : container.put segment a.value = some after) :
    root.set path value = (.ok a.path, root.putAt p after) :=
  set_of_completes h hl.toCompletes hv hput

theorem set_of_put_eq_none (h : root.additionFor path value = .ok a)
    (hl : Leads root path value a p container segment)
    (hput : container.put segment a.value = none) :
    root.set path value = (.error (.notFound segment), root) :=
  set_of_completes_none h hl.toCompletes hput

section Below
variable {kind : RecordKind} {members : Fields Value} {key : String} {rest : Path}
  (hp : root.at? p = some (record kind members)) (hk : Role.ofSegment key = .key)
include hp hk

theorem set_entry (he : Fields.get? members key = none → key ≠ "")
    (hv : value.isDocument = true) :
    root.set (p ++ [key]) value =
      (.ok (p ++ [key]), root.putAt p (assign kind members key value)) :=
  set_of_additionFor (additionFor_entry hp hk he value) hp (present?_of_isDocument hv)
    (put_record_of_key kind members hk value)

/-- **To set a path that goes on under a key of a record changes at most the entry there.** -/
theorem set_below (hne : key ≠ "") (hkp : key ≠ prototypeKey) (hv : value.isDocument = true) :
    (root.set (p ++ key :: rest) value).2 = root ∨
      ∃ new, (root.set (p ++ key :: rest) value).2 =
        root.putAt p (record kind (Fields.insert members key new)) := by
  cases h : root.additionFor (p ++ key :: rest) value with
  | error fault =>
    rw [set_of_additionFor_error h]
    exact Or.inl rfl
  | ok a =>
    obtain ⟨more, hm⟩ := additionFor_below hp hk hne h
    obtain ⟨place, container, segment, hc⟩ : ∃ place container segment,
        Completes root (p ++ key :: rest) value a place container segment := by
      rcases exists_completes (by simp) h with ⟨hnil, -⟩ | hc
      · rw [hnil] at hm
        simp at hm
      · exact hc
    have hpath : place ++ [segment] = p ++ key :: more := hc.path_eq.symm.trans hm
    cases hput : container.put segment a.value with
    | none =>
      rw [set_of_completes_none h hc hput]
      exact Or.inl rfl
    | some after =>
      rw [set_of_completes h hc hv hput]
      right
      rcases List.eq_nil_or_concat' more with rfl | ⟨below, last, rfl⟩
      · obtain ⟨rfl, hs⟩ := List.append_inj' hpath rfl
        obtain rfl : segment = key := by simpa using hs
        obtain rfl : record kind members = container := by
          simpa using hp.symm.trans hc.at_eq
        rw [put_record_of_key kind members hk, assign_of_not_adopts (not_adopts_of_ne _ hkp),
          Option.some.injEq] at hput
        exact ⟨a.value, by rw [hput]⟩
      · obtain ⟨rfl, -⟩ : place = p ++ key :: below ∧ [segment] = [last] :=
          List.append_inj' (by simpa using hpath) rfl
        have hat := hc.at_eq
        rw [at?_append_of_at? hp] at hat
        obtain ⟨child, hchild, -⟩ := at?_cons_eq_some_iff.mp hat
        exact ⟨child.putAt below after,
          by rw [putAt_append_of_at? hp, putAt_cons hchild]; rfl⟩

end Below

theorem exists_isInstance_at?_putAt {after : Value}
    (hl : Leads root path value a p container segment)
    (hput : container.put segment a.value = some after) (ha : container.adopts segment = false) :
    ∃ q, path.IsInstance q ∧ (root.putAt p after).at? q = some value := by
  obtain ⟨rest, hq, hv⟩ := hl.reaches
  refine ⟨_, hq, ?_⟩
  rw [List.append_cons, at?_append_of_at? (at?_putAt_slot hl.at_eq hput ha)]
  exact hv

theorem no_instances_of_adopts (h : root.additionFor path value = .ok a) (hp : path ≠ [])
    (hc : Completes root path value a p container segment) (ha : container.adopts segment = true) :
    instances path root = [] := by
  cases hi : instances path root with
  | nil => rfl
  | cons e others =>
    exfalso
    rw [additionFor_of_instances hp hi, Except.ok.injEq] at h
    have hpath := hc.path_eq
    rw [← h] at hpath
    dsimp only at hpath
    split at hpath
    · have hs : segment = traversal := by
        rw [Path.withTraversalLast] at hpath
        exact (List.append_singleton_inj.mp hpath).2.symm
      rw [hs, not_adopts_of_ne _ (by decide)] at ha
      cases ha
    · have hat := (mem_instances.mp (hi ▸ List.mem_cons_self : e ∈ instances path root)).2
      rw [hpath] at hat
      have hno := not_adoptsAt_of_at? hat
      rw [adoptsAt_concat hc.at_eq, ha] at hno
      cases hno

/-- A path does not lead to what a record has taken for its prototype. -/
theorem not_resolves_of_adopts {after : Value} (h : root.additionFor path value = .ok a)
    (hp : path ≠ []) (hc : Completes root path value a p container segment)
    (ha : container.adopts segment = true) (hput : container.put segment a.value = some after) :
    (root.putAt p after).resolves path ≠ .ok true := by
  intro hr
  obtain ⟨old, hg⟩ := resolves_eq_ok_true_iff.mp hr
  obtain ⟨⟨q, x⟩, hi, -⟩ := Option.map_eq_some_iff.mp (get_eq_ok_iff.mp hg)
  obtain ⟨hq, hat⟩ := mem_instances.mp (List.mem_of_head? hi)
  have hnew : root.at? q = none := by
    refine Option.eq_none_iff_forall_ne_some.mpr fun y hy => ?_
    have hmem := mem_instances.mpr ⟨hq, hy⟩
    rw [no_instances_of_adopts h hp hc ha] at hmem
    cases hmem
  -- the place would be the one assigned or below it, but the record has no such member
  obtain ⟨above, habove⟩ :=
    exists_at?_of_covers hat (covers_of_new hc.at_eq (agreeBut_put hput) hat hnew)
  rw [at?_append_of_at? (at?_putAt hc.at_eq after), at?_singleton,
    child?_slot_of_adopts hput ha] at habove
  cases habove

end Set

/-- **What `set` does**: it fails and leaves the document as it was, or it gives the path of the one
place at which the document has changed.  Then the path that was set leads to the value, unless a
record has taken what was assigned for its prototype; in that case the path leads nowhere. -/
theorem set_reaches_or_keeps (root value : Value) (path : Path) (hp : path ≠ []) (he : "" ∉ path)
    (hv : value.isDocument = true) :
    (∃ fault, root.set path value = (.error fault, root)) ∨
      ∃ written left, root.set path value = (.ok written, left) ∧
        (root.adoptsAt written = false →
          (∃ first, left.findFirst path value = .ok (some first)) ∧
          (traversal ∉ path → left.get path = .ok value)) ∧
        (root.adoptsAt written = true → left.resolves path ≠ .ok true) ∧
        ∃ place, root.Names written place ∧ ChangedOnlyAt root left place := by
  cases h : root.additionFor path value with
  | error fault => exact Or.inl ⟨fault, set_of_additionFor_error h⟩
  | ok a =>
    obtain ⟨p, container, segment, hl⟩ := exists_leads hp he h
    cases hput : container.put segment a.value with
    | none => exact Or.inl ⟨_, set_of_put_eq_none h hl hput⟩
    | some after =>
      have hadopts : root.adoptsAt a.path = container.adopts segment := by
        rw [hl.path_eq, adoptsAt_concat hl.at_eq]
      refine Or.inr ⟨a.path, root.putAt p after, set_of_put h hl hv hput, fun ha => ?_, fun ha => ?_,
        p ++ [container.slot segment], ?_, changedOnlyAt_putAt hl.at_eq hput⟩
      · obtain ⟨q, hq, hat⟩ := exists_isInstance_at?_putAt hl hput (hadopts ▸ ha)
        refine ⟨exists_findFirst hq hat (holds_iff.mpr (Or.inr (same_refl hv))), fun ht => ?_⟩
        obtain rfl := (Path.isInstance_iff_eq ht).mp hq
        exact get_of_at? hat
      · exact not_resolves_of_adopts h hp hl.toCompletes (hadopts ▸ ha) hput
      · rw [hl.path_eq]
        exact names_slot hl.at_eq hl.fits

/-- The structure that the rest of the path asks for is appended to the array that takes it. -/
theorem set_appends_missing_structure :
    let root := object [("a", array [object [("b", array [])]])]
    let path : Path := ["a", "-", "b", "-", "c"]
    path ≠ [] ∧ "" ∉ path ∧ (string "x").isDocument = true ∧
      ∃ left, root.set path (string "x") = (.ok ["a", "-"], left) ∧
        (∃ first, left.findFirst path (string "x") = .ok (some first)) ∧
        ∃ place, root.Names ["a", "-"] place ∧ ChangedOnlyAt root left place := by
  intro root path
  have hp : path ≠ [] := by decide
  have he : "" ∉ path := by decide
  have hw : (root.set path (string "x")).1 = .ok ["a", "-"] := by decide +kernel
  refine ⟨hp, he, rfl, ?_⟩
  rcases set_reaches_or_keeps root (string "x") path hp he rfl with
    ⟨fault, hs⟩ | ⟨written, left, hs, hreaches, -, hplace⟩
  · rw [hs] at hw
    cases hw
  · rw [hs] at hw
    cases hw
    exact ⟨left, hs, (hreaches (by decide +kernel)).1, hplace⟩

/-- A text cannot be a prototype, so it is lost when it is set as one. -/
theorem set_text_for_prototype :
    let root := object []
    root.set ["__proto__"] (string "x") = (.ok ["__proto__"], root) ∧
      root.findFirst ["__proto__"] (string "x") = .ok none ∧
      root.get ["__proto__"] = .error (.notFound "__proto__") := by
  intro root
  exact ⟨by rfl, by rfl, by rfl⟩

end Value

end Manifest
