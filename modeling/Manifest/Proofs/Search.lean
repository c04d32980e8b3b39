import Manifest.Access
import Manifest.Proofs.Reading

/-!
# Looking values up

The reading operations in terms of the instances of a path.  If no obstacle is in front of the first
`-` of a path, `get` gives the value of its first instance, `findFirst` the first instance with the
content asked for and `findAll` all of them; an obstacle is the fault of all three.

The main statements are `findAll_eq_instances`: the paths found are exactly the instances of a path
at which `get` succeeds with that content, each once and in the order of the positions chosen, and
`findAll` fails exactly with the faults of `get` other than a missing place; and `reads_agree`: the
four reading operations tell the same about a path.
-/

namespace Manifest

namespace Visitor

theorem run_reader (p : Value → Bool) (every : Bool) (budget : Nat) (root : Value) (path : Path) :
    (reader p every).run budget root path =
      ((reader p every).visit budget path [] root []).map fun left => left.getD root := by
  cases path with
  | cons segment rest => rfl
  | nil => cases h : p root <;> simp [run, targetRoot, visit_nil, target, judge, reader, h,
      Outcome.map, Outcome.miss, Outcome.fail]

theorem run_reader_of_obstacle (p : Value → Bool) (every : Bool) (budget : Nat) {root : Value}
    {path : Path} {fault : Fault} (h : Value.obstacle "" path root = some fault) :
    (reader p every).run budget root path = .fail fault root [] := by
  have h' : Value.obstacle (Trail.key []) path root = some fault := h
  rw [run_reader, visit_of_obstacle _ _ _ _ h']
  rfl

end Visitor

namespace Value

open Visitor

theorem holds_iff {wanted value : Value} :
    wanted.holds value = true ↔ wanted.present? = none ∨ value.same wanted = true := by
  cases hw : wanted.present? with
  | none => simp [holds, hw]
  | some w =>
    obtain ⟨rfl, -, -⟩ := present?_eq_some_iff.mp hw
    cases hv : value.present? with
    | none =>
      have hs : value.same wanted = false := by
        cases value <;> simp [present?] at hv
        all_goals simp [same, hw]
      simp [holds, hw, hv, hs]
    | some v =>
      obtain ⟨rfl, -, -⟩ := present?_eq_some_iff.mp hv
      simp [holds, hw, hv]

section Get
variable {root : Value} {path : Path}

theorem get_of_obstacle {fault : Fault} (h : obstacle "" path root = some fault) :
    root.get path = .error fault := by
  show ((reader (fun _ => true) false).run 0 root path).result = _
  rw [run_reader_of_obstacle _ _ _ h]
  rfl

theorem get_of_instances {e : Path × Value} {rest : List (Path × Value)}
    (h : instances path root = e :: rest) : root.get path = .ok e.2 := by
  show ((reader (fun _ => true) false).run 0 root path).result = _
  have hh : hits (fun _ => true) path root = e :: rest :=
    (hits_of_all (fun _ => rfl) path root).trans h
  obtain ⟨r, hr, hre⟩ := (visit_reads false 0 (fun _ => true) path [] root []).found e rest hh
  rw [run_reader, Outcome.result_map, hr, hre rfl]

theorem get_of_no_instances (ho : obstacle "" path root = none) (h : instances path root = []) :
    ∃ segment, root.get path = .error (.notFound segment) := by
  have hh : hits (fun _ => true) path root = [] :=
    (hits_of_all (fun _ => rfl) path root).trans h
  refine ⟨gap path root, ?_⟩
  show ((reader (fun _ => true) false).run 0 root path).result = _
  rw [run_reader, Outcome.result_map, (visit_reader_missed false 0 [] [] ho hh).1]

/-- **Reading succeeds with the value of the first instance of the path, if there is one.** -/
theorem get_eq_ok_iff {value : Value} :
    root.get path = .ok value ↔ (instances path root).head?.map Prod.snd = some value := by
  cases ho : obstacle "" path root with
  | some fault => simp [get_of_obstacle ho, instances_of_obstacle ho]
  | none =>
    cases hi : instances path root with
    | nil =>
      obtain ⟨segment, hg⟩ := get_of_no_instances ho hi
      simp [hg]
    | cons e rest => simp [get_of_instances hi]

/-- **Reading fails with another fault than a missing place exactly at an obstacle.** -/
theorem get_eq_error_iff {fault : Fault} :
    root.get path = .error fault ∧ fault.isNotFound = false ↔
      obstacle "" path root = some fault := by
  constructor
  · rintro ⟨hg, hf⟩
    cases ho : obstacle "" path root with
    | some fault' =>
      rw [get_of_obstacle ho] at hg
      cases hg
      rfl
    | none =>
      cases hi : instances path root with
      | nil =>
        obtain ⟨segment, hs⟩ := get_of_no_instances ho hi
        rw [hs] at hg
        cases hg
        cases hf
      | cons e rest =>
        rw [get_of_instances hi] at hg
        cases hg
  · intro ho
    exact ⟨get_of_obstacle ho, (isStructural_of_obstacle ho).2⟩

theorem get_eq_ok_iff_at? (hp : traversal ∉ path) {value : Value} :
    root.get path = .ok value ↔ root.at? path = some value := by
  rw [get_eq_ok_iff, instances_of_notMem hp]
  cases root.at? path <;> simp

theorem get_of_at? {value : Value} (h : root.at? path = some value) : root.get path = .ok value :=
  (get_eq_ok_iff_at? (traversal_notMem_of_at? h)).mpr h

theorem resolves_eq_ok_true_iff :
    root.resolves path = .ok true ↔ ∃ value, root.get path = .ok value := by
  cases hg : root.get path with
  | ok value => simp [resolves, hg]
  | error fault => cases hf : fault.isNotFound <;> simp [resolves, hg, hf]

theorem resolves_eq_ok_false_iff :
    root.resolves path = .ok false ↔ ∃ fault, root.get path = .error fault ∧
      fault.isNotFound = true := by
  cases hg : root.get path with
  | ok value => simp [resolves, hg]
  | error fault => cases hf : fault.isNotFound <;> simp [resolves, hg, hf]

end Get

/-! ### Searching -/

section Search
variable (root : Value) (path : Path) (wanted : Value)

theorem seekPaths_of_obstacle (every : Bool) {fault : Fault}
    (h : obstacle "" path root = some fault) :
    root.seekPaths path wanted every = .error fault := by
  have hv : (seeker wanted every).run 0 root path = .fail fault root [] :=
    run_reader_of_obstacle wanted.holds every 0 h
  simp [seekPaths, hv, Outcome.fail, (isStructural_of_obstacle h).2]

theorem seekPaths_of_no_obstacle (every : Bool) (h : obstacle "" path root = none) :
    root.seekPaths path wanted every =
      .ok ((if every then hits wanted.holds path root
        else (hits wanted.holds path root).take 1).map Prod.fst) := by
  have hv : (seeker wanted every).run 0 root path =
      ((reader wanted.holds every).visit 0 path [] root []).map fun left => left.getD root :=
    run_reader wanted.holds every 0 root path
  have hr := visit_reads every 0 wanted.holds path [] root []
  have ha : acceptedPaths wanted ((reader wanted.holds every).visit 0 path [] root []).history =
      (if every then hits wanted.holds path root
        else (hits wanted.holds path root).take 1).map Prod.fst := by
    show History.accepted wanted.holds _ = _
    rw [hr.accepted]
    rfl
  unfold seekPaths
  rw [hv]
  dsimp only
  rw [Outcome.result_map, Outcome.history_map, ha]
  cases hh : hits wanted.holds path root with
  | nil =>
    rw [(visit_reader_missed every 0 [] [] h hh).1]
    rfl
  | cons e rest =>
    obtain ⟨r, hs, -⟩ := hr.found e rest hh
    rw [hs]

theorem findAll_of_no_obstacle (h : obstacle "" path root = none) :
    root.findAll path wanted = .ok ((hits wanted.holds path root).map Prod.fst) :=
  seekPaths_of_no_obstacle root path wanted true h

theorem findFirst_of_no_obstacle (h : obstacle "" path root = none) :
    root.findFirst path wanted = .ok ((hits wanted.holds path root).head?.map Prod.fst) := by
  unfold findFirst
  rw [seekPaths_of_no_obstacle root path wanted false h]
  cases hits wanted.holds path root <;> rfl

variable {root path wanted}

/-- **Something is found as soon as some instance has the content asked for.** -/
theorem exists_findFirst {q : Path} {value : Value} (hq : path.IsInstance q)
    (ha : root.at? q = some value) (hw : wanted.holds value = true) :
    ∃ first, root.findFirst path wanted = .ok (some first) := by
  have hi : (q, value) ∈ instances path root := mem_instances.mpr ⟨hq, ha⟩
  have ho : obstacle "" path root = none := by
    cases ho : obstacle "" path root with
    | none => rfl
    | some fault =>
      rw [instances_of_obstacle ho] at hi
      cases hi
  have hh : (q, value) ∈ hits wanted.holds path root := List.mem_filter.mpr ⟨hi, hw⟩
  rw [findFirst_of_no_obstacle root path wanted ho]
  cases hl : hits wanted.holds path root with
  | nil =>
    rw [hl] at hh
    cases hh
  | cons e rest => exact ⟨e.1, rfl⟩

end Search

/-- **What `findAll` finds**: exactly the instances of the path at which reading succeeds with the
content asked for, each once and in the lexicographic order of the positions chosen.  It fails
exactly with the faults of reading other than a missing place. -/
theorem findAll_eq_instances (root : Value) (path : Path) (wanted : Value) :
    (∀ found, root.findAll path wanted = .ok found →
      found.Nodup ∧ found.Pairwise (fun q r => path.choices q < path.choices r) ∧
        ∀ q, q ∈ found ↔ path.IsInstance q ∧ ∃ value, root.get q = .ok value ∧
          (wanted.present? = none ∨ value.same wanted = true)) ∧
      ∀ fault, root.findAll path wanted = .error fault ↔
        root.get path = .error fault ∧ fault.isNotFound = false := by
  have hf : ∀ fault, root.findAll path wanted = .error fault ↔
      root.get path = .error fault ∧ fault.isNotFound = false := by
    intro fault
    rw [get_eq_error_iff]
    cases ho : obstacle "" path root with
    | some fault' => rw [findAll, seekPaths_of_obstacle root path wanted true ho]; simp
    | none => simp [findAll_of_no_obstacle root path wanted ho]
  refine ⟨fun found h => ?_, hf⟩
  have ho : obstacle "" path root = none := by
    cases ho : obstacle "" path root with
    | none => rfl
    | some fault =>
      rw [findAll, seekPaths_of_obstacle root path wanted true ho] at h
      cases h
  rw [findAll_of_no_obstacle root path wanted ho, Except.ok.injEq] at h
  subst h
  have hpw : ((hits wanted.holds path root).map Prod.fst).Pairwise
      fun q r => path.choices q < path.choices r := by
    rw [List.pairwise_map]
    exact (pairwise_choices_instances path root).sublist List.filter_sublist
  refine ⟨hpw.imp fun hlt he => ?_, hpw, fun q => ?_⟩
  · rw [he] at hlt
    exact List.lt_irrefl _ hlt
  · rw [List.mem_map]
    constructor
    · rintro ⟨⟨q, value⟩, he, rfl⟩
      obtain ⟨hi, hw⟩ := List.mem_filter.mp he
      obtain ⟨hq, ha⟩ := mem_instances.mp hi
      exact ⟨hq, value, (get_eq_ok_iff_at? hq.traversal_notMem).mpr ha, holds_iff.mp hw⟩
    · rintro ⟨hq, value, hg, hw⟩
      have ha := (get_eq_ok_iff_at? hq.traversal_notMem).mp hg
      exact ⟨(q, value), List.mem_filter.mpr ⟨mem_instances.mpr ⟨hq, ha⟩, holds_iff.mpr hw⟩, rfl⟩

/-- An element that the rest of the path does not fit is passed over. -/
theorem findAll_nested_arrays :
    let root := object [("a", array [object [("b", array [string "x", string "y"])], string "z",
      object [("b", array [string "y"])]])]
    let found : List Path := [["a", "0", "b", "1"], ["a", "2", "b", "0"]]
    root.findAll ["a", "-", "b", "-"] (string "y") = .ok found ∧
      ∀ q, q ∈ found ↔ Path.IsInstance ["a", "-", "b", "-"] q ∧ ∃ value,
        root.get q = .ok value ∧
          ((string "y").present? = none ∨ value.same (string "y") = true) := by
  intro root found
  have h : root.findAll ["a", "-", "b", "-"] (string "y") = .ok found := by decide +kernel
  exact ⟨h, ((findAll_eq_instances root ["a", "-", "b", "-"] (string "y")).1 found h).2.2⟩

/-! ### Agreement -/

section Agreement
variable (root : Value) (path : Path) (wanted : Value)

theorem findFirst_of_obstacle {fault : Fault} (h : obstacle "" path root = some fault) :
    root.findFirst path wanted = .error fault := by
  rw [findFirst, seekPaths_of_obstacle root path wanted false h]
  rfl

theorem resolves_of_obstacle {fault : Fault} (h : obstacle "" path root = some fault) :
    root.resolves path = .error fault := by
  simp [resolves, get_of_obstacle h, (isStructural_of_obstacle h).2]

theorem hits_absent : hits absent.holds path root = instances path root :=
  hits_of_all (fun _ => rfl) path root

theorem resolves_of_no_obstacle (h : obstacle "" path root = none) :
    root.resolves path = .ok (instances path root).head?.isSome := by
  cases hi : instances path root with
  | nil =>
    obtain ⟨segment, hg⟩ := get_of_no_instances h hi
    simp [resolves, hg, Fault.isNotFound]
  | cons e rest => simp [resolves, get_of_instances hi]

end Agreement

theorem resolves_of_findFirst {root wanted : Value} {path first : Path}
    (h : root.findFirst path wanted = .ok (some first)) : root.resolves path = .ok true := by
  cases ho : obstacle "" path root with
  | some fault =>
    rw [findFirst_of_obstacle root path wanted ho] at h
    cases h
  | none =>
    rw [findFirst_of_no_obstacle root path wanted ho, Except.ok.injEq, Option.map_eq_some_iff] at h
    obtain ⟨e, he, -⟩ := h
    have hmem : e ∈ instances path root := (List.mem_filter.mp (List.mem_of_head? he)).1
    rw [resolves_of_no_obstacle root path ho]
    cases hi : instances path root with
    | nil =>
      rw [hi] at hmem
      cases hmem
    | cons _ _ => rfl

theorem findFirst_eq_some_iff {root : Value} {path q : Path} :
    root.findFirst path absent = .ok (some q) ↔
      ∃ value, (instances path root).head? = some (q, value) := by
  cases ho : obstacle "" path root with
  | some fault => simp [findFirst_of_obstacle root path absent ho, instances_of_obstacle ho]
  | none => simp [findFirst_of_no_obstacle root path absent ho, hits_absent]

/-- **The reading operations agree**: the first path found is the first of all that are found, a
path resolves exactly if one is found, and reading it is reading at the first path found.  All of
them give an answer, or all fail with the one fault that says where the path does not fit. -/
theorem reads_agree (root : Value) (path : Path) (wanted : Value) :
    root.findFirst path wanted = (root.findAll path wanted).map List.head? ∧
      root.resolves path = (root.findFirst path absent).map Option.isSome ∧
      ((∃ value, root.get path = .ok value) ↔ ∃ q, root.findFirst path absent = .ok (some q)) ∧
      (∀ q, root.findFirst path absent = .ok (some q) → root.get path = root.get q) ∧
      ((∃ answer first found, root.resolves path = .ok answer ∧
          root.findFirst path wanted = .ok first ∧ root.findAll path wanted = .ok found) ∨
        ∃ fault, fault.isMisfit = true ∧ root.resolves path = .error fault ∧
          root.findFirst path wanted = .error fault ∧ root.findAll path wanted = .error fault) := by
  cases ho : obstacle "" path root with
  | some fault =>
    have hall : root.findAll path wanted = .error fault :=
      seekPaths_of_obstacle root path wanted true ho
    rw [resolves_of_obstacle root path ho, findFirst_of_obstacle root path wanted ho,
      findFirst_of_obstacle root path absent ho, get_of_obstacle ho, hall]
    exact ⟨rfl, rfl, by simp, nofun, Or.inr ⟨fault, isMisfit_of_obstacle ho, rfl, rfl, rfl⟩⟩
  | none =>
    rw [resolves_of_no_obstacle root path ho, findFirst_of_no_obstacle root path wanted ho,
      findFirst_of_no_obstacle root path absent ho, findAll_of_no_obstacle root path wanted ho,
      hits_absent]
    refine ⟨by simp [Except.map], by simp [Except.map], ?_, fun q hq => ?_,
      Or.inl ⟨_, _, _, rfl, rfl, rfl⟩⟩
    · simpa [get_eq_ok_iff] using exists_comm
    · cases hi : instances path root with
      | nil => simp [hi] at hq
      | cons e rest =>
        obtain rfl : e.1 = q := by simpa [hi] using hq
        have he : (e.1, e.2) ∈ instances path root := by simp [hi]
        rw [get_of_instances hi, get_of_at? (mem_instances.mp he).2]

/-- A first element in which the rest of the path does not resolve is passed over by all of them. -/
theorem reads_agree_past_misfit :
    let root := object [("a", array [string "x", object [("b", string "y")]])]
    root.findFirst ["a", "-", "b"] absent = .ok (some ["a", "1", "b"]) ∧
      root.get ["a", "-", "b"] = root.get ["a", "1", "b"] := by
  intro root
  have h : root.findFirst ["a", "-", "b"] absent = .ok (some ["a", "1", "b"]) := by
    decide +kernel
  exact ⟨h, (reads_agree root ["a", "-", "b"] absent).2.2.2.1 _ h⟩

end Value

end Manifest
