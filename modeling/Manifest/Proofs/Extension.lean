import Manifest.Addition
import Manifest.Proofs.Content
import Manifest.Proofs.Search

/-!
# Extending a document

`Value.additionFor` in terms of the instances of a path.  If the path has an instance, the addition
is at the first one, with a final `-` kept (`additionFor_of_instances`); otherwise it is where the
path stops, and the rest of the path is wrapped round the value (`additionFor_of_missing`).

In both cases the addition completes the path (`Completes`, `exists_completes`): it is to be made
below a container that exists and is of the kind asked for, and what is then found at the slot
written completes an instance of the path that leads to the value.  For a path without empty keys it
has none itself (`Leads`, `exists_leads`); with an empty key the path may stop at the root, and then
there is no container to add below.
-/

namespace Manifest

open Value Visitor

/-! ### Wrapping -/

/-- The value inside one record with one member for each key and one array with one element for each
`-`, the first segment outermost. -/
inductive Wraps (value : Value) : Path → Value → Prop
  | nil : Wraps value [] value
  | key {segment : String} {rest : Path} {inner : Value} (hs : Role.ofSegment segment = .key)
      (h : Wraps value rest inner) : Wraps value (segment :: rest) (object [(segment, inner)])
  | any {rest : Path} {inner : Value} (h : Wraps value rest inner) :
      Wraps value (traversal :: rest) (array [inner])

theorem wraps_of_wrap {segments : Path} {value wrapped : Value}
    (h : wrap segments value = .ok wrapped) : Wraps value segments wrapped := by
  induction segments generalizing wrapped with
  | nil =>
    obtain rfl : value = wrapped := by simpa [wrap] using h
    exact .nil
  | cons segment rest ih =>
    simp only [wrap] at h
    cases hw : wrap rest value with
    | error fault => simp [hw] at h
    | ok inner =>
      simp only [hw] at h
      cases hs : Role.ofSegment segment with
      | key =>
        obtain rfl : object [(segment, inner)] = wrapped := by simpa [hs] using h
        exact .key hs (ih hw)
      | any =>
        obtain rfl : array [inner] = wrapped := by simpa [hs] using h
        obtain rfl := Role.ofSegment_eq_any_iff.mp hs
        exact .any (ih hw)
      | index n => simp [hs] at h

section Wraps
variable {segments : Path} {value wrapped : Value}

theorem Wraps.exists_at? (h : Wraps value segments wrapped) :
    ∃ q, segments.IsInstance q ∧ wrapped.at? q = some value := by
  induction h with
  | nil => exact ⟨[], List.Forall₂.nil, at?_nil _⟩
  | @key segment rest inner hs _ ih =>
    obtain ⟨q, hq, ha⟩ := ih
    have hne := Role.ne_traversal_of_key hs
    refine ⟨segment :: q, List.Forall₂.cons ((standsFor_of_ne hne).mpr rfl) hq, ?_⟩
    refine at?_cons_eq_some_iff.mpr ⟨inner, ?_, ha⟩
    rw [child?_record_of_key hs, Fields.get?_cons, if_pos rfl]
  | @any rest inner _ ih =>
    obtain ⟨q, hq, ha⟩ := ih
    refine ⟨indexSegment 0 :: q, List.Forall₂.cons (standsFor_traversal.mpr ⟨0, rfl⟩) hq, ?_⟩
    refine at?_cons_eq_some_iff.mpr ⟨inner, ?_, ha⟩
    rw [child?_array_of_index (Role.ofSegment_indexSegment 0)]
    rfl

theorem Wraps.isDocument (h : Wraps value segments wrapped) (hv : value.isDocument = true) :
    wrapped.isDocument = true := by
  induction h with
  | nil => exact hv
  | key _ _ ih =>
    refine isDocument_record.mpr ⟨rfl, by simp [Fields.Distinct, Fields.keys], fun e he => ?_⟩
    rw [List.mem_singleton.mp he]
    exact ih
  | any _ ih =>
    refine isDocument_array.mpr fun x hx => ?_
    rw [List.mem_singleton.mp hx]
    exact ih

end Wraps

/-! ### Where a path stops -/

/-- A path without obstacle and without instance stops below a container that exists, at a segment
that fits it and under which it has nothing. -/
theorem exists_stop {key : String} {path : Path} {v : Value} (ho : obstacle key path v = none)
    (hi : instances path v = []) :
    ∃ p segment rest container, path = p ++ segment :: rest ∧
      stop path v = p ++ (if segment = "" then [] else [segment]) ∧
      v.at? p = some container ∧ container.Fits segment ∧ container.child? segment = none := by
  induction path generalizing key v with
  | nil => simp at hi
  | cons segment rest ih =>
    cases v.step key segment with
    | misfit fault hm =>
      rw [obstacle_of_misfit hm] at ho
      cases ho
    | child child hm hc =>
      rw [obstacle_of_child? hc] at ho
      rw [instances_of_child? hc, List.map_eq_nil_iff] at hi
      obtain ⟨p, last, rest', container, rfl, hs, ha, hf, hn⟩ := ih ho hi
      refine ⟨segment :: p, last, rest', container, rfl, ?_, ?_, hf, hn⟩
      · rw [stop_of_child? hc, hs, List.cons_append]
      · exact at?_cons_eq_some_iff.mpr ⟨child, hc, ha⟩
    | spread items hv hs =>
      subst hv hs
      refine ⟨[], traversal, rest, array items, rfl, stop_of_child?_none (child?_traversal _) rest,
        at?_nil _, ?_, child?_traversal _⟩
      exact Or.inl ⟨items, rfl, by rw [Role.ofSegment_traversal]; exact nofun⟩
    | missing hm hs hc =>
      exact ⟨[], segment, rest, v, rfl, stop_of_child?_none hc rest, at?_nil _,
        misfit_eq_none_iff.mp hm, hc⟩

section Below
variable {root container : Value} {p : Path} (hp : root.at? p = some container)
include hp

theorem obstacle_append (key : String) (rest : Path) :
    obstacle key (p ++ rest) root = obstacle (p.getLastD key) rest container := by
  induction p generalizing root key with
  | nil =>
    obtain rfl : root = container := by simpa using hp
    rfl
  | cons s inner ih =>
    obtain ⟨child, hc, hr⟩ := at?_cons_eq_some_iff.mp hp
    rw [List.cons_append, obstacle_of_child? hc, ih hr, List.getLastD_cons]

theorem stop_append (rest : Path) : stop (p ++ rest) root = p ++ stop rest container := by
  induction p generalizing root with
  | nil =>
    obtain rfl : root = container := by simpa using hp
    rfl
  | cons s inner ih =>
    obtain ⟨child, hc, hr⟩ := at?_cons_eq_some_iff.mp hp
    rw [List.cons_append, stop_of_child? hc, ih hr, List.cons_append]

theorem gap_append (rest : Path) : gap (p ++ rest) root = gap rest container := by
  induction p generalizing root with
  | nil =>
    obtain rfl : root = container := by simpa using hp
    rfl
  | cons s inner ih =>
    obtain ⟨child, hc, hr⟩ := at?_cons_eq_some_iff.mp hp
    rw [List.cons_append, gap_of_child? hc, ih hr]

theorem instances_append (rest : Path) :
    instances (p ++ rest) root = (instances rest container).map fun e => (p ++ e.1, e.2) := by
  induction p generalizing root with
  | nil =>
    obtain rfl : root = container := by simpa using hp
    simp
  | cons s inner ih =>
    obtain ⟨child, hc, hr⟩ := at?_cons_eq_some_iff.mp hp
    rw [List.cons_append, instances_of_child? hc, ih hr, List.map_map]
    rfl

section Missing
variable {segment : String} (hf : container.Fits segment) (hc : container.child? segment = none)
include hf hc

theorem no_obstacle_of_missing (rest : Path) : obstacle "" (p ++ segment :: rest) root = none := by
  have hm : container.misfit (p.getLastD "") segment = none := misfit_eq_none_iff.mpr hf
  rw [obstacle_append hp]
  simp only [obstacle, hm, hc, Option.bind_none]

/-- A path that goes on below a container under a segment that fits, but leads nowhere, has neither
an obstacle nor an instance. -/
theorem no_instances_of_missing (hs : segment ≠ traversal) (rest : Path) :
    obstacle "" (p ++ segment :: rest) root = none ∧
      instances (p ++ segment :: rest) root = [] := by
  have hr : Role.ofSegment segment ≠ .any := fun h => hs (Role.ofSegment_eq_any_iff.mp h)
  refine ⟨no_obstacle_of_missing hp hf hc rest, ?_⟩
  rw [instances_append hp, instances_cons, branches_of_child?_none hc (Or.inl hr)]
  rfl

theorem resolves_of_missing (hs : segment ≠ traversal) (rest : Path) :
    root.resolves (p ++ segment :: rest) = .ok false := by
  obtain ⟨ho, hi⟩ := no_instances_of_missing hp hf hc hs rest
  rw [resolves_of_no_obstacle _ _ ho, hi]
  rfl

end Missing

end Below

section MissingKey
variable {root : Value} {p : Path} {kind : RecordKind} {members : Fields Value} {key : String}
  (hp : root.at? p = some (record kind members)) (hs : Role.ofSegment key = .key)
  (hm : Fields.get? members key = none) (rest : Path)
include hp hs hm

theorem no_instances_of_missing_key :
    obstacle "" (p ++ key :: rest) root = none ∧ instances (p ++ key :: rest) root = [] :=
  no_instances_of_missing hp (Or.inr ⟨kind, members, rfl, hs⟩)
    ((child?_record_of_key hs).trans hm) (Role.ne_traversal_of_key hs) rest

theorem resolves_of_missing_key : root.resolves (p ++ key :: rest) = .ok false :=
  resolves_of_missing hp (Or.inr ⟨kind, members, rfl, hs⟩)
    ((child?_record_of_key hs).trans hm) (Role.ne_traversal_of_key hs) rest

theorem get_of_missing_key : ∃ segment, root.get (p ++ key :: rest) = .error (.notFound segment) :=
  have h := no_instances_of_missing_key hp hs hm rest
  get_of_no_instances h.1 h.2

end MissingKey

/-! ### The addition -/

section Addition
variable {root : Value} {path : Path} (hp : path ≠ [])
include hp

theorem additionFor_of_obstacle {fault : Fault} (h : obstacle "" path root = some fault)
    (value : Value) : root.additionFor path value = .error fault := by
  have hrun : ({} : Visitor).run 0 root path = .fail fault root [] :=
    run_reader_of_obstacle (fun _ => true) false 0 h
  simp [additionFor, hp, hrun, Outcome.fail, (isStructural_of_obstacle h).2]

theorem additionFor_of_instances {e : Path × Value} {rest : List (Path × Value)}
    (h : instances path root = e :: rest) (value : Value) :
    root.additionFor path value =
      .ok ⟨if path.endsInTraversal then e.1.withTraversalLast else e.1, value⟩ := by
  have hrun : ({} : Visitor).run 0 root path =
      ((reader (fun _ => true) false).visit 0 path [] root []).map fun left => left.getD root :=
    run_reader (fun _ => true) false 0 root path
  have hh : hits (fun _ => true) path root = e :: rest :=
    (hits_of_all (fun _ => rfl) path root).trans h
  have hr := visit_reads false 0 (fun _ => true) path [] root []
  obtain ⟨r, hres, -⟩ := hr.found e rest hh
  obtain ⟨inner, stands, older, hlast, hpath⟩ := hr.last rfl e rest hh
  have hreached : inner.path = e.1 := by simpa using hpath
  simp only [additionFor, hrun, Outcome.result_map, Outcome.history_map, hres, hlast,
    History.reached, hreached, List.isEmpty_iff, hp, if_false]

theorem additionFor_of_missing (ho : obstacle "" path root = none) (hi : instances path root = [])
    (value : Value) :
    root.additionFor path value =
      if (stop path root).length = path.length then .ok ⟨stop path root, value⟩
      else if (stop path root).endsInIndex then .error .indexNotation
      else (wrap (path.drop (stop path root).length) value).map fun wrapped =>
        ⟨stop path root, wrapped⟩ := by
  have hrun : ({} : Visitor).run 0 root path =
      ((reader (fun _ => true) false).visit 0 path [] root []).map fun left => left.getD root :=
    run_reader (fun _ => true) false 0 root path
  have hh : hits (fun _ => true) path root = [] :=
    (hits_of_all (fun _ => rfl) path root).trans hi
  obtain ⟨hres, older, hlast⟩ := visit_reader_missed false 0 [] [] ho hh
  simp only [additionFor, hrun, Outcome.result_map, Outcome.history_map, hres, hlast,
    History.reached, List.isEmpty_iff, hp, if_false, Fault.isNotFound, Trail.path_nil,
    List.nil_append, Bool.not_true, Bool.false_eq_true]
  cases wrap (path.drop (stop path root).length) value <;> rfl

end Addition

/-! ### Where an addition leads -/

theorem Path.endsInTraversal_concat (p : Path) (segment : String) :
    Path.endsInTraversal (p ++ [segment]) = decide (segment = traversal) := by
  simp [Path.endsInTraversal]

theorem Path.endsInIndex_concat (p : Path) (segment : String) :
    Path.endsInIndex (p ++ [segment]) = false ↔ ∀ n, Role.ofSegment segment ≠ .index n := by
  unfold Path.endsInIndex
  rw [List.getLast?_concat, Option.map_some]
  cases Role.ofSegment segment <;> simp

theorem additionFor_of_at? {root old : Value} {path : Path} (h : root.at? path = some old)
    (hp : path ≠ []) (value : Value) : root.additionFor path value = .ok ⟨path, value⟩ := by
  have ht := traversal_notMem_of_at? h
  have hi : instances path root = [(path, old)] := by
    rw [instances_of_notMem ht, h]
    rfl
  have he : path.endsInTraversal = false := by
    rw [Path.endsInTraversal, decide_eq_false_iff_not]
    exact fun hl => ht (List.mem_of_getLast? hl)
  rw [additionFor_of_instances hp hi, he]
  rfl

theorem additionFor_of_missing_child {root container : Value} {p : Path} {segment : String}
    {rest : Path} (hp : root.at? p = some container) (hf : container.Fits segment)
    (hc : container.child? segment = none) (hx : ∀ n, Role.ofSegment segment ≠ .index n)
    (he : segment ≠ "") (hi : instances (p ++ segment :: rest) root = []) (value : Value) :
    root.additionFor (p ++ segment :: rest) value =
      (wrap rest value).map fun wrapped => ⟨p ++ [segment], wrapped⟩ := by
  have hstop : stop (p ++ segment :: rest) root = p ++ [segment] := by
    rw [stop_append hp, stop_of_child?_none hc, if_neg he]
  have hidx : Path.endsInIndex (p ++ [segment]) = false :=
    (Path.endsInIndex_concat p segment).mpr hx
  rw [additionFor_of_missing (by simp) (no_obstacle_of_missing hp hf hc rest) hi, hstop, hidx,
    List.append_cons p segment rest, List.drop_left]
  cases rest with
  | nil => simp [wrap, Except.map]
  | cons s others => simp

theorem additionFor_of_missing_key {root : Value} {p : Path} {kind : RecordKind}
    {members : Fields Value} {key : String} (hp : root.at? p = some (record kind members))
    (hs : Role.ofSegment key = .key) (hm : Fields.get? members key = none) (he : key ≠ "")
    (rest : Path) (value : Value) :
    root.additionFor (p ++ key :: rest) value =
      (wrap rest value).map fun wrapped => ⟨p ++ [key], wrapped⟩ := by
  have hx : ∀ n, Role.ofSegment key ≠ .index n := by
    rw [hs]
    exact nofun
  exact additionFor_of_missing_child hp (Or.inr ⟨kind, members, rfl, hs⟩)
    ((child?_record_of_key hs).trans hm) hx he (no_instances_of_missing_key hp hs hm rest).2 value

/-- An entry of a record is itself what is to be added, unless it is new and has the empty key. -/
theorem additionFor_entry {root : Value} {p : Path} {kind : RecordKind} {members : Fields Value}
    {key : String} (hp : root.at? p = some (record kind members)) (hk : Role.ofSegment key = .key)
    (he : Fields.get? members key = none → key ≠ "") (value : Value) :
    root.additionFor (p ++ [key]) value = .ok ⟨p ++ [key], value⟩ := by
  cases hg : Fields.get? members key with
  | some old => exact additionFor_of_at? ((at?_entry hp hk).trans hg) (by simp) value
  | none => exact additionFor_of_missing_key hp hk hg (he hg) [] value

theorem Value.standsFor_slot {v : Value} {segment : String} (h : v.Fits segment) :
    StandsFor segment (v.slot segment) := by
  by_cases hs : segment = traversal
  · subst hs
    rcases h with ⟨items, rfl, -⟩ | ⟨kind, members, -, hk⟩
    · exact standsFor_traversal.mpr ⟨items.length, rfl⟩
    · cases hk
  · have hr : Role.ofSegment segment ≠ .any := fun h => hs (Role.ofSegment_eq_any_iff.mp h)
    rw [standsFor_of_ne hs]
    cases v <;> simp [slot, hr]

theorem Value.fits_of_standsFor {v child : Value} {segment key : String} (h : StandsFor segment key)
    (hc : v.child? key = some child) : v.Fits segment := by
  by_cases hs : segment = traversal
  · subst hs
    obtain ⟨n, rfl⟩ := standsFor_traversal.mp h
    rcases container_of_child? hc with ⟨items, m, rfl, -, -⟩ | ⟨kind, members, rfl, hr, -⟩
    · exact Or.inl ⟨items, rfl, by rw [Role.ofSegment_traversal]; exact nofun⟩
    · rw [Role.ofSegment_indexSegment] at hr
      cases hr
  · rw [standsFor_of_ne hs] at h
    subst h
    exact fits_of_child? hc

/-- An addition completes a path: it is to be made under `segment` below the container at `p`, and
what is then found at the slot completes an instance of the path that leads to the value. -/
structure Completes (root : Value) (path : Path) (value : Value) (a : Addition) (p : Path)
    (container : Value) (segment : String) : Prop where
  path_eq : a.path = p ++ [segment]
  at_eq : root.at? p = some container
  fits : container.Fits segment
  reaches : ∃ rest, path.IsInstance (p ++ container.slot segment :: rest) ∧
    a.value.at? rest = some value
  document : value.isDocument = true → a.value.isDocument = true
  not_index : path.endsInIndex = false → ∀ n, Role.ofSegment segment ≠ .index n

section Completes
variable {root value : Value} {path : Path} {a : Addition} (hp : path ≠ [])
  (h : root.additionFor path value = .ok a)
include hp h

theorem exists_completes_of_instances {e : Path × Value} {others : List (Path × Value)}
    (hi : instances path root = e :: others) :
    ∃ p container segment, Completes root path value a p container segment := by
  obtain ⟨q, x⟩ := e
  rw [additionFor_of_instances hp hi, Except.ok.injEq] at h
  have hq : (q, x) ∈ instances path root := by rw [hi]; exact List.mem_cons_self
  obtain ⟨hinst, ha⟩ := mem_instances.mp hq
  rcases List.eq_nil_or_concat' path with rfl | ⟨path, s, rfl⟩
  · exact absurd rfl hp
  obtain ⟨p, k, rfl, hpath, hk⟩ := hinst.concat
  obtain ⟨container, hc, hx⟩ := at?_concat_eq_some_iff.mp ha
  have hf := fits_of_standsFor hk hx
  have hpa : a.path = p ++ [s] := by
    rw [← h, Path.endsInTraversal_concat]
    by_cases hs : s = traversal
    · subst hs
      simp [Path.withTraversalLast]
    · rw [standsFor_of_ne hs] at hk
      simp [hs, hk]
  refine ⟨p, container, s, hpa, hc, hf, ⟨[], ?_, ?_⟩, ?_, fun hn => ?_⟩
  · exact hpath.append (List.Forall₂.cons (standsFor_slot hf) List.Forall₂.nil)
  · rw [← h]
    exact at?_nil _
  · rw [← h]
    exact id
  · exact (Path.endsInIndex_concat path s).mp hn

/-- What is added where a path stops is the rest of the path, wrapped round the value; under an
index nothing is left to wrap. -/
theorem wrap_of_missing (ho : obstacle "" path root = none)
    (hi : instances path root = []) :
    a.path = stop path root ∧ wrap (path.drop a.path.length) value = .ok a.value ∧
      (a.path.endsInIndex = true → a.path.length = path.length) := by
  rw [additionFor_of_missing hp ho hi] at h
  by_cases hl : (stop path root).length = path.length
  · rw [if_pos hl, Except.ok.injEq] at h
    subst h
    refine ⟨rfl, ?_, fun _ => hl⟩
    rw [hl, List.drop_length]
    rfl
  rw [if_neg hl] at h
  by_cases hx : (stop path root).endsInIndex = true
  · rw [if_pos hx] at h
    cases h
  rw [if_neg hx] at h
  cases hw : wrap (path.drop (stop path root).length) value with
  | error fault =>
    rw [hw] at h
    cases h
  | ok wrapped =>
    rw [hw] at h
    cases h
    exact ⟨rfl, hw, fun h => absurd h hx⟩

/-- The container at which a path stops takes the rest of the path, wrapped round the value.  An
empty key is left out of the report, so it is wrapped as well, and what the addition replaces is
then the container without it. -/
theorem exists_completes_of_missing (ho : obstacle "" path root = none)
    (hi : instances path root = []) :
    (a.path = [] ∧ "" ∈ path) ∨
      ∃ p container segment, Completes root path value a p container segment := by
  obtain ⟨p, s, rest, container, rfl, hstop, hc, hf, -⟩ := exists_stop ho hi
  obtain ⟨hpa, hw, hx⟩ := wrap_of_missing hp h ho hi
  have hpp : p.IsInstance p := (Path.isInstance_iff_eq (traversal_notMem_of_at? hc)).mpr rfl
  rw [hstop] at hpa
  by_cases hs : s = ""
  · subst hs
    rw [if_pos rfl, List.append_nil] at hpa
    rw [hpa, List.drop_left] at hw
    rcases List.eq_nil_or_concat' p with rfl | ⟨above, k, rfl⟩
    · exact Or.inl ⟨hpa, List.mem_cons_self⟩
    obtain ⟨outer, ha, hk⟩ := at?_concat_eq_some_iff.mp hc
    have hkn : k ≠ traversal := by
      rintro rfl
      simp at hk
    have hslot : outer.slot k = k :=
      (standsFor_of_ne hkn).mp (standsFor_slot (fits_of_child? hk))
    obtain ⟨q, hq, hat⟩ := (wraps_of_wrap hw).exists_at?
    refine Or.inr ⟨above, outer, k, hpa, ha, fits_of_child? hk, ⟨q, ?_, hat⟩,
      (wraps_of_wrap hw).isDocument, fun _ => (Path.endsInIndex_concat above k).mp ?_⟩
    · rw [hslot, List.append_cons above k q]
      exact hpp.append hq
    · rw [← hpa, Bool.eq_false_iff]
      intro hidx
      have hlen := hx hidx
      rw [hpa] at hlen
      simp at hlen
  · rw [if_neg hs] at hpa
    rw [hpa, List.append_cons p s rest, List.drop_left] at hw
    obtain ⟨q, hq, hat⟩ := (wraps_of_wrap hw).exists_at?
    refine Or.inr ⟨p, container, s, hpa, hc, hf, ⟨q, ?_, hat⟩,
      (wraps_of_wrap hw).isDocument,
      fun hn => (Path.endsInIndex_concat p s).mp ?_⟩
    · exact hpp.append (List.Forall₂.cons (standsFor_slot hf) hq)
    · rw [← hpa, Bool.eq_false_iff]
      intro hidx
      -- under an index the segment is the last of the path, which does not end in one
      have hlen := hx hidx
      rw [hpa] at hlen hidx
      obtain rfl : rest = [] := by
        rw [← List.length_eq_zero_iff]
        simp only [List.length_append, List.length_cons, List.length_nil] at hlen
        omega
      rw [hn] at hidx
      cases hidx

/-- **Every addition below the root completes its path.**  Only a path with an empty key has one
that is not below the root. -/
theorem exists_completes :
    (a.path = [] ∧ "" ∈ path) ∨
      ∃ p container segment, Completes root path value a p container segment := by
  cases ho : obstacle "" path root with
  | some fault =>
    rw [additionFor_of_obstacle hp ho] at h
    cases h
  | none =>
    cases hi : instances path root with
    | cons e others => exact Or.inr (exists_completes_of_instances hp h hi)
    | nil => exact exists_completes_of_missing hp h ho hi

end Completes

section Record
variable {root value : Value} {p rest : Path} {kind : RecordKind} {members : Fields Value}
  {key : String} (hp : root.at? p = some (record kind members)) (hk : Role.ofSegment key = .key)
include hp hk

theorem exists_of_mem_instances_below {e : Path × Value}
    (he : e ∈ instances (p ++ key :: rest) root) :
    ∃ more, e.1 = p ++ key :: more ∧ rest.IsInstance more := by
  rw [instances_append hp] at he
  obtain ⟨⟨q, v⟩, hq, rfl⟩ := List.mem_map.mp he
  obtain ⟨hinst, -⟩ := mem_instances.mp hq
  cases hinst with
  | @cons _ chosen _ more hs hrest =>
    obtain rfl := (standsFor_of_ne (Role.ne_traversal_of_key hk)).mp hs
    exact ⟨more, rfl, hrest⟩

theorem additionFor_below (hne : key ≠ "") {a : Addition}
    (h : root.additionFor (p ++ key :: rest) value = .ok a) :
    ∃ more, a.path = p ++ key :: more := by
  have hpath : p ++ key :: rest ≠ [] := by simp
  cases ho : obstacle "" (p ++ key :: rest) root with
  | some fault =>
    rw [additionFor_of_obstacle hpath ho] at h
    cases h
  | none =>
    cases hi : instances (p ++ key :: rest) root with
    | nil =>
      obtain ⟨hpa, -, -⟩ := wrap_of_missing hpath h ho hi
      rw [hpa, stop_append hp]
      cases hc : (record kind members).child? key with
      | some child => exact ⟨stop rest child, by rw [stop_of_child? hc]⟩
      | none => exact ⟨[], by rw [stop_of_child?_none hc, if_neg hne]⟩
    | cons e others =>
      rw [additionFor_of_instances hpath hi, Except.ok.injEq] at h
      obtain ⟨more, he, hrest⟩ :=
        exists_of_mem_instances_below hp hk (hi ▸ List.mem_cons_self)
      rw [← h, he]
      by_cases hend : Path.endsInTraversal (p ++ key :: rest) = true
      · -- the last segment is not the key, since that is no `-`
        have hm : more ≠ [] := by
          rintro rfl
          cases hrest
          rw [Path.endsInTraversal_concat, decide_eq_true_iff] at hend
          exact Role.ne_traversal_of_key hk hend
        refine ⟨more.dropLast ++ [traversal], ?_⟩
        simp [hend, Path.withTraversalLast, List.dropLast_append_of_ne_nil,
          List.dropLast_cons_of_ne_nil hm]
      · exact ⟨more, by rw [if_neg hend]⟩

end Record

/-- An addition leads to its goal: it completes its path and has no empty key itself. -/
structure Leads (root : Value) (path : Path) (value : Value) (a : Addition) (p : Path)
    (container : Value) (segment : String) : Prop
    extends Completes root path value a p container segment where
  named : "" ∉ a.path

theorem Value.slot_empty (v : Value) : v.slot "" = "" := by
  have hr : Role.ofSegment "" ≠ .any := by decide
  cases v <;> simp [slot, hr]

/-- **Every addition for a path without empty keys leads to its goal.** -/
theorem exists_leads {root value : Value} {path : Path} {a : Addition} (hp : path ≠ [])
    (he : "" ∉ path) (h : root.additionFor path value = .ok a) :
    ∃ p container segment, Leads root path value a p container segment := by
  rcases exists_completes hp h with ⟨-, hm⟩ | ⟨p, container, segment, hc⟩
  · exact absurd hm he
  obtain ⟨rest, hinst, -⟩ := hc.reaches
  have hn := hinst.empty_notMem he
  rw [List.mem_append, List.mem_cons, not_or, not_or] at hn
  refine ⟨p, container, segment, hc, ?_⟩
  rw [hc.path_eq, List.mem_append, List.mem_singleton, not_or]
  refine ⟨hn.1, fun hs => hn.2.1 ?_⟩
  rw [← hs, Value.slot_empty]

end Manifest
