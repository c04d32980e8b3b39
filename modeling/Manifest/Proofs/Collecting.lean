import Manifest.Proofs.Content
import Manifest.Proofs.Search

/-!
# Reading every target

A visitor that wants every target and writes nothing collects what it finds.  At each `-` the
results below the elements in which the rest of the path succeeds are put into an array, unless
there is only one, which stands for itself; `Value.collected` says so by recursion on the path, and
a visit comes to it (`visit_collects`).

How the collected value looks depends on where the `-` are, but a single instance of the path is
never wrapped (`collected_of_singleton`), and a path with one `-` gives the values of its instances
one after the other (`collected_of_count_le_one`).  The main statement, `run_every_agrees`, ties
this to `get` and `findAll`.
-/

namespace Manifest

theorem filterMap_of_flatMap_singleton {α β γ : Type} {below : α → List β} {pick : α → Option γ}
    {f : β → γ} (hnone : ∀ a, below a = [] → pick a = none)
    (hone : ∀ a b, below a = [b] → pick a = some (f b)) {l : List α} {e : β}
    (h : l.flatMap below = [e]) : l.filterMap pick = [f e] := by
  induction l with
  | nil => cases h
  | cons a more ih =>
    rw [List.flatMap_cons] at h
    rcases List.append_eq_singleton_iff.mp h with ⟨ha, hmore⟩ | ⟨ha, hmore⟩
    · rw [List.filterMap_cons_none (hnone a ha), ih hmore]
    · have hrest : more.filterMap pick = [] := by
        rw [List.flatMap_eq_nil_iff] at hmore
        exact List.filterMap_eq_nil_iff.mpr fun b hb => hnone b (hmore b hb)
      rw [List.filterMap_cons_some (hone a e ha), hrest]

namespace Value

open Visitor

/-- What is collected along a path: at each segment the results below the children that it leads
to, as far as there are any. -/
def collected : Path → Value → Option Value
  | [], v => some v
  | segment :: rest, v =>
    collect ((v.branches segment).filterMap fun b => collected rest b.2)

theorem collected_of_child? {v child : Value} {segment : String}
    (h : v.child? segment = some child) (rest : Path) :
    collected (segment :: rest) v = collected rest child := by
  rw [collected, branches_of_child? h, List.filterMap_cons]
  cases collected rest child <;> rfl

theorem collected_traversal (rest : Path) (items : List Value) :
    collected (traversal :: rest) (array items) =
      collect (items.filterMap (collected rest)) := by
  rw [collected, branches_any items Role.ofSegment_traversal, List.filterMap_map]
  conv_rhs => rw [← List.zipIdx_map_fst 0 items, List.filterMap_map]
  rfl

theorem collected_eq_none_iff {path : Path} {v : Value} :
    collected path v = none ↔ instances path v = [] := by
  induction path generalizing v with
  | nil => simp [collected]
  | cons segment rest ih =>
    rw [collected, collect_eq_none_iff, List.filterMap_eq_nil_iff, instances_cons,
      List.flatMap_eq_nil_iff]
    simp only [ih, List.map_eq_nil_iff]

/-- **A single instance is not wrapped**, however many `-` the path has. -/
theorem collected_of_singleton {path : Path} {v : Value} {e : Path × Value}
    (h : instances path v = [e]) : collected path v = some e.2 := by
  induction path generalizing v e with
  | nil =>
    obtain rfl : ([], v) = e := by simpa using h
    rfl
  | cons segment rest ih =>
    have hone : (v.branches segment).filterMap (fun b => collected rest b.2) = [e.2] := by
      refine filterMap_of_flatMap_singleton (f := Prod.snd) (fun b hb => ?_) (fun b x hb => ?_)
        (instances_cons segment rest v ▸ h)
      · exact collected_eq_none_iff.mpr (List.map_eq_nil_iff.mp hb)
      · obtain ⟨y, hy, rfl⟩ := List.map_eq_singleton_iff.mp hb
        rw [ih hy]
    rw [collected, hone]
    rfl

theorem collected_of_notMem {path : Path} (h : traversal ∉ path) (v : Value) :
    collected path v = v.at? path := by
  cases ha : v.at? path with
  | none => rw [collected_eq_none_iff, instances_of_notMem h, ha]; rfl
  | some value =>
    refine collected_of_singleton (e := (path, value)) ?_
    rw [instances_of_notMem h, ha]
    rfl

/-- **Along a path with one `-`** the values of the instances are collected one after the other. -/
theorem collected_of_count_le_one {path : Path} (h : path.count traversal ≤ 1) (v : Value) :
    collected path v = collect ((instances path v).map Prod.snd) := by
  induction path generalizing v with
  | nil => rfl
  | cons segment rest ih =>
    by_cases hs : segment = traversal
    · have hrest : traversal ∉ rest := by
        rw [hs, List.count_cons_self] at h
        exact List.count_eq_zero.mp (by omega)
      have hvalues : ∀ b : String × Value,
          (collected rest b.2).toList =
            ((instances rest b.2).map fun e => (b.1 :: e.1, e.2)).map Prod.snd := by
        intro b
        rw [collected_of_notMem hrest, instances_of_notMem hrest]
        cases b.2.at? rest <;> rfl
      rw [collected, instances_cons, List.map_flatMap, List.filterMap_eq_flatMap_toList]
      simp only [hvalues]
    · rw [List.count_cons_of_ne hs] at h
      cases hc : v.child? segment with
      | some child =>
        rw [collected_of_child? hc, instances_of_child? hc, List.map_map]
        exact ih h child
      | none =>
        have hr : Role.ofSegment segment ≠ .any := fun hr => hs (Role.ofSegment_eq_any_iff.mp hr)
        rw [collected, instances_cons, branches_of_child?_none hc (Or.inl hr)]
        rfl

end Value

namespace Visitor

open Value

/-- The visitor that collects what it finds. -/
abbrev collector : Visitor := { every := true }

/-! ### Visits that collect -/

theorem collect_of_two_le {results : List Value} (h : 2 ≤ results.length) :
    collect results = some (array (results.filterMap present?)) := by
  match results, h with
  | _ :: _ :: _, _ => rfl

/-- A descent that comes to what is collected along a path, and fails only for reasons that a
traversal passes over. -/
def DescentCollects (rest : Path) (trail : Trail) (descend : Descent) : Prop :=
  ∀ frame x history, (descend (frame :: trail) x history).result.toOption = collected rest x ∧
    ∀ fault, (descend (frame :: trail) x history).result = .error fault →
      fault.isStructural = true

/-- The traversal adds what is collected in the elements ahead to the results so far. -/
theorem scanAll_collects {rest : Path} {trail : Trail} {descend : Descent}
    (hd : DescentCollects rest trail descend) :
    ∀ (ahead results behind : List Value) (history : History),
      (scanAll descend trail results behind ahead history).result.toOption =
        collect (results.reverse ++ ahead.filterMap (collected rest))
  | [], results, behind, history => by
    rw [List.filterMap_nil, List.append_nil]
    cases hc : collect results.reverse <;>
      simp [scanAll, hc, Outcome.miss, Outcome.fail, Except.toOption]
  | x :: ahead, results, behind, history => by
    obtain ⟨hx, hfail⟩ := hd (.element (indexSegment behind.length) behind ahead) x history
    generalize ho : descend (.element (indexSegment behind.length) behind ahead :: trail) x
      history = o at hx hfail
    cases hr : o.result with
    | ok r =>
      have hsome : collected rest x = some r := by rw [← hx, hr]; rfl
      rw [scanAll_cons_of_ok ho hr, scanAll_collects hd ahead, List.filterMap_cons_some hsome,
        List.reverse_cons, List.append_assoc]
      rfl
    | error fault =>
      have hnone : collected rest x = none := by rw [← hx, hr]; rfl
      rw [scanAll_cons_of_error ho hr (hfail fault hr), scanAll_collects hd ahead,
        List.filterMap_cons_none hnone]

theorem isStructural_of_visit_reader {p : Value → Bool} {every : Bool} {budget : Nat} {path : Path}
    {trail : Trail} {node : Value} {history : History} {fault : Fault}
    (h : ((reader p every).visit budget path trail node history).result = .error fault) :
    fault.isStructural = true := by
  have hr := visit_reads every budget p path trail node history
  cases hh : hits p path node with
  | nil =>
    obtain ⟨fault', hf, hs⟩ := hr.failed hh
    rw [h, Except.error.injEq] at hf
    rwa [hf]
  | cons e rest =>
    obtain ⟨r, hf, -⟩ := hr.found e rest hh
    rw [h] at hf
    cases hf

/-- **What a visit collects.** -/
theorem visit_collects (budget : Nat) (path : Path) (trail : Trail) (node : Value)
    (history : History) :
    (collector.visit budget path trail node history).result.toOption = collected path node := by
  induction path generalizing trail node history with
  | nil => rfl
  | cons segment rest ih =>
    cases node.step trail.key segment with
    | misfit fault hm =>
      rw [visit_misfit _ _ _ _ _ hm, collected, branches_of_misfit hm]
      rfl
    | child child hm hc =>
      obtain ⟨frame, -, -, -, hv⟩ := visit_child collector budget trail history rest hc
      rw [hv, Outcome.result_map, collected_of_child? hc]
      exact ih (frame :: trail) child history
    | spread items hv hs =>
      subst hv hs
      have hd : DescentCollects rest trail (collector.visit budget rest) := fun frame x h =>
        ⟨ih (frame :: trail) x h, fun fault hf => isStructural_of_visit_reader hf⟩
      rw [visit_any _ _ _ _ _ _ Role.ofSegment_traversal, collected_traversal, Outcome.result_map]
      exact scanAll_collects hd items [] [] history
    | missing hm hs hc =>
      have hr : Role.ofSegment segment ≠ .any := fun hr => hs (Role.ofSegment_eq_any_iff.mp hr)
      rw [visit_missing _ _ _ _ hm hs hc (Or.inr (Or.inl rfl)), collected,
        branches_of_child?_none hc (Or.inl hr)]
      rfl

section Run
variable (budget : Nat) (root : Value) (path : Path)

theorem run_collects :
    (collector.run budget root path).result.toOption = collected path root := by
  rw [show collector = reader (fun _ => true) true from rfl, run_reader, Outcome.result_map]
  exact visit_collects budget path [] root []

/-- **Collecting fails with the faults of reading.** -/
theorem run_collector_error_iff {fault : Fault} :
    (collector.run budget root path).result = .error fault ↔ root.get path = .error fault := by
  rw [show collector = reader (fun _ => true) true from rfl]
  cases ho : obstacle "" path root with
  | some fault' => rw [run_reader_of_obstacle _ _ _ ho, get_of_obstacle ho]; rfl
  | none =>
    cases hi : instances path root with
    | nil =>
      have hh : hits (fun _ => true) path root = [] :=
        (hits_of_all (fun _ => rfl) path root).trans hi
      have hget : root.get path = .error (.notFound (gap path root)) := by
        show ((reader (fun _ => true) false).run 0 root path).result = _
        rw [run_reader, Outcome.result_map, (visit_reader_missed false 0 [] [] ho hh).1]
      rw [run_reader, Outcome.result_map, (visit_reader_missed true budget [] [] ho hh).1, hget]
    | cons e rest =>
      have hc : collected path root ≠ none := fun hc => by
        rw [collected_eq_none_iff, hi] at hc
        cases hc
      rw [get_of_instances hi]
      refine ⟨fun hf => ?_, nofun⟩
      have hr := run_collects budget root path
      rw [show collector = reader (fun _ => true) true from rfl, hf] at hr
      exact absurd hr.symm hc

end Run

/-- **Collecting agrees with `get` and `findAll`.**  It fails exactly if reading fails, with the
same fault.  If one path is found, its value is collected as it is, whatever `-` are in the path;
and if the path has one `-` and more than one path is found, the values there are collected in an
array, in the order in which their paths are found. -/
theorem run_every_agrees (budget : Nat) {root : Value} (h : root.isDocument = true) (path : Path) :
    let all := ({ every := true } : Visitor).run budget root path
    (∀ fault, all.result = .error fault ↔ root.get path = .error fault) ∧
      (∀ q, root.findAll path absent = .ok [q] →
        ∃ value, root.get q = .ok value ∧ all.result = .ok value) ∧
      (path.count traversal = 1 → ∀ found, root.findAll path absent = .ok found →
        2 ≤ found.length → ∃ values, List.Forall₂ (fun q value => root.get q = .ok value)
          found values ∧ all.result = .ok (array values)) := by
  intro all
  have hfound : ∀ found, root.findAll path absent = .ok found →
      found = (instances path root).map Prod.fst := by
    intro found hf
    cases ho : obstacle "" path root with
    | some fault =>
      rw [findAll, seekPaths_of_obstacle root path absent true ho] at hf
      cases hf
    | none =>
      rw [findAll_of_no_obstacle root path absent ho, hits_absent] at hf
      exact (Except.ok.inj hf).symm
  have hresult : all.result.toOption = collected path root := run_collects budget root path
  refine ⟨fun fault => run_collector_error_iff budget root path, fun q hq => ?_,
    fun hone found hf hlen => ?_⟩
  · obtain ⟨e, he, rfl⟩ := List.map_eq_singleton_iff.mp (hfound _ hq).symm
    have hmem : (e.1, e.2) ∈ instances path root := by simp [he]
    rw [collected_of_singleton he] at hresult
    exact ⟨e.2, get_of_at? (mem_instances.mp hmem).2, toOption_eq_some_iff.mp hresult⟩
  · have hpresent : ∀ e ∈ instances path root, e.2.present? = some e.2 := fun e he =>
      present?_of_isDocument (isDocument_of_at? h (mem_instances.mp he).2)
    have hvalues : ((instances path root).map Prod.snd).filterMap present? =
        (instances path root).map Prod.snd := by
      rw [List.filterMap_map]
      exact List.filterMap_eq_map_iff_forall_eq_some.mpr hpresent
    rw [hfound found hf, List.length_map] at hlen
    rw [collected_of_count_le_one hone.le, collect_of_two_le (by simpa using hlen), hvalues]
      at hresult
    refine ⟨_, ?_, toOption_eq_some_iff.mp hresult⟩
    rw [hfound found hf, List.forall₂_map_left_iff, List.forall₂_map_right_iff,
      List.forall₂_same]
    exact fun e he => get_of_at? (mem_instances.mp he).2

/-- A single value below two `-` next to an element without any, and two values next to an element
in which the path does not resolve. -/
theorem run_every_agrees_of_nested :
    let root := object [("a", array [object [("b", array [string "x"]), ("c", null)], string "z",
      object [("b", array []), ("c", bool true)]])]
    root.isDocument = true ∧
      root.findAll ["a", "-", "b", "-"] absent = .ok [["a", "0", "b", "0"]] ∧
      (∃ value, root.get ["a", "0", "b", "0"] = .ok value ∧
        (({ every := true } : Visitor).run 0 root ["a", "-", "b", "-"]).result = .ok value) ∧
      root.findAll ["a", "-", "c"] absent = .ok [["a", "0", "c"], ["a", "2", "c"]] ∧
      ∃ values, List.Forall₂ (fun q value => root.get q = .ok value)
          [["a", "0", "c"], ["a", "2", "c"]] values ∧
        (({ every := true } : Visitor).run 0 root ["a", "-", "c"]).result =
          .ok (array values) := by
  intro root
  have h : root.isDocument = true := by decide
  have hone : root.findAll ["a", "-", "b", "-"] absent = .ok [["a", "0", "b", "0"]] := by
    decide +kernel
  have htwo : root.findAll ["a", "-", "c"] absent = .ok [["a", "0", "c"], ["a", "2", "c"]] := by
    decide +kernel
  exact ⟨h, hone, (run_every_agrees 0 h ["a", "-", "b", "-"]).2.1 _ hone, htwo,
    (run_every_agrees 0 h ["a", "-", "c"]).2.2 (by decide) _ htwo (by decide)⟩

end Visitor

end Manifest
