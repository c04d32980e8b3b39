import Manifest.Proofs.Extension

/-!
# What a visit without a target reports

A visit that neither judges nor writes fails with a missing place exactly where its path stops
(`run_missed`): below a container that exists and is of the kind asked for, at a segment under which
it has nothing.  The fault carries that segment, and the last report is the place of the container
followed by the segment, which is left out if it is the empty key.

So the report names what is missing (`NamesMissing`) exactly if that is not the empty key
(`run_report_names_missing_iff`); a missing empty key makes it the place of the record that lacks
it, which exists (`run_report_of_empty_key`).
-/

namespace Manifest

open Value

/-- A report names the missing segment: it ends in it, does so below a record or an array at a
place without `-`, and leads to nothing there, unless the segment is `-` itself. -/
structure Value.NamesMissing (root : Value) (segment : String) (report : Path) : Prop where
  last_eq : report.getLast? = some segment
  no_traversal : traversal ∉ report.dropLast
  container : (∃ kind members, root.get report.dropLast = .ok (record kind members)) ∨
    ∃ items, root.get report.dropLast = .ok (array items)
  missing : report.endsInTraversal = false → root.resolves report = .ok false

theorem namesMissing_of_child?_none {root container : Value} {p : Path} {segment : String}
    (hp : root.at? p = some container) (hf : container.Fits segment)
    (hc : container.child? segment = none) : root.NamesMissing segment (p ++ [segment]) := by
  have hg : root.get (p ++ [segment]).dropLast = .ok container := by
    rw [List.dropLast_concat]
    exact get_of_at? hp
  refine ⟨List.getLast?_concat, ?_, ?_, fun he => ?_⟩
  · rw [List.dropLast_concat]
    exact traversal_notMem_of_at? hp
  · rcases hf with ⟨items, rfl, -⟩ | ⟨kind, members, rfl, -⟩
    · exact Or.inr ⟨items, hg⟩
    · exact Or.inl ⟨kind, members, hg⟩
  · rw [Path.endsInTraversal_concat, decide_eq_false_iff_not] at he
    exact resolves_of_missing hp hf hc he []

theorem not_namesMissing_of_at? {root value : Value} {p : Path} {segment : String}
    (hp : root.at? p = some value) : ¬ root.NamesMissing segment p := by
  intro h
  have he : p.endsInTraversal = false := by
    rw [Path.endsInTraversal, decide_eq_false_iff_not]
    exact fun hl => traversal_notMem_of_at? hp (List.mem_of_getLast? hl)
  have hr := h.missing he
  rw [resolves_eq_ok_true_iff.mpr ⟨value, get_of_at? hp⟩] at hr
  cases hr

namespace Visitor

/-- A visit that fails with a missing place has come to a container which lacks it, and has reported
the two last. -/
theorem run_missed {every : Bool} {budget : Nat} {root : Value} {path : Path} {segment : String}
    (h : (({ every := every } : Visitor).run budget root path).result =
      .error (.notFound segment)) :
    ∃ p rest container older, path = p ++ segment :: rest ∧ root.at? p = some container ∧
      container.Fits segment ∧ container.child? segment = none ∧
      (({ every := every } : Visitor).run budget root path).history =
        .missed (p ++ if segment = "" then [] else [segment]) :: older := by
  have hrun : ({ every := every } : Visitor).run budget root path =
      ((reader (fun _ => true) every).visit budget path [] root []).map fun left =>
        left.getD root := run_reader (fun _ => true) every budget root path
  have hh : hits (fun _ => true) path root = instances path root :=
    hits_of_all (fun _ => rfl) path root
  -- neither an obstacle nor an instance of the path leads to this fault
  have ho : obstacle "" path root = none := by
    cases ho : obstacle "" path root with
    | none => rfl
    | some fault =>
      have hfail : ({ every := every } : Visitor).run budget root path = .fail fault root [] :=
        run_reader_of_obstacle (fun _ => true) every budget ho
      rw [hfail] at h
      cases h
      cases (isStructural_of_obstacle ho).2
  have hi : instances path root = [] := by
    cases hi : instances path root with
    | nil => rfl
    | cons e others =>
      have hr := visit_reads every budget (fun _ => true) path [] root []
      obtain ⟨r, hres, -⟩ := hr.found e others (hh.trans hi)
      rw [hrun, Outcome.result_map, hres] at h
      cases h
  obtain ⟨hres, older, hlast⟩ := visit_reader_missed every budget [] [] ho (hh.trans hi)
  obtain ⟨p, s, rest, container, rfl, hstop, hp, hf, hc⟩ := exists_stop ho hi
  have hs : s = segment := by
    rw [hrun, Outcome.result_map, hres, gap_append hp, gap_of_child?_none hc] at h
    simpa using h
  subst hs
  refine ⟨p, rest, container, older, rfl, hp, hf, hc, ?_⟩
  rw [hrun, Outcome.history_map, hlast, hstop]
  rfl

/-- **What the last report of a failed visit names.**  If a visit that neither judges nor writes
fails with a missing segment, then its last report names that segment, unless it is the empty key.
A report of the empty key is only the place of the record that lacks it, one segment short of the
way that was tried. -/
theorem run_report_names_missing_iff {every : Bool} {budget : Nat} {root : Value} {path : Path}
    {segment : String}
    (h : (({ every := every } : Visitor).run budget root path).result =
      .error (.notFound segment)) :
    ∃ report older,
      (({ every := every } : Visitor).run budget root path).history = .missed report :: older ∧
        (root.NamesMissing segment report ↔ segment ≠ "") ∧
        (segment = "" → ∃ kind members, root.get report = .ok (record kind members) ∧
          Fields.get? members "" = none ∧ report ++ [""] <+: path) := by
  obtain ⟨p, rest, container, older, hpath, hp, hf, hc, hl⟩ := run_missed h
  refine ⟨_, older, hl, ?_⟩
  by_cases he : segment = ""
  · subst he
    rw [if_pos rfl, List.append_nil]
    constructor
    · exact ⟨fun hn => absurd hn (not_namesMissing_of_at? hp), fun hn => absurd rfl hn⟩
    · intro _
      rcases hf with ⟨items, rfl, hk⟩ | ⟨kind, members, rfl, hk⟩
      · exact absurd (by decide) hk
      · refine ⟨kind, members, get_of_at? hp, (child?_record_of_key hk).symm.trans hc, rest, ?_⟩
        rw [hpath, List.append_assoc, List.singleton_append]
  · rw [if_neg he]
    exact ⟨⟨fun _ => he, fun _ => namesMissing_of_child?_none hp hf hc⟩, fun hs => absurd hs he⟩

/-- Behind elements that lack the key asked for, the traversal itself is what is missing. -/
theorem run_report_names_missing_in_array :
    let root := object [("a", array [string "x", object [("b", object [])]])]
    let o := ({} : Visitor).run 0 root ["a", "-", "b", "c"]
    o.result = .error (.notFound "-") ∧
      ∃ report older, o.history = .missed report :: older ∧
        (root.NamesMissing "-" report ↔ "-" ≠ "") := by
  intro root o
  have h : o.result = .error (.notFound "-") := rfl
  obtain ⟨report, older, hl, hn, -⟩ := run_report_names_missing_iff h
  exact ⟨h, report, older, hl, hn⟩

/-- The empty key is missing below `a`, but the last report is `a`, which is there. -/
theorem run_report_of_empty_key :
    let root := object [("a", object [])]
    let o := ({} : Visitor).run 0 root ["a", ""]
    o.result = .error (.notFound "") ∧ o.history = [.missed ["a"]] ∧
      ¬ root.NamesMissing "" ["a"] :=
  ⟨rfl, rfl, not_namesMissing_of_at? (at?_cons_eq_some_iff.mpr ⟨object [], rfl, rfl⟩)⟩

end Visitor

end Manifest
