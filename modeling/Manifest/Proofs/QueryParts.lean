import Manifest.Proofs.Query
import Mathlib.Algebra.Group.Nat.Even

/-!
# Queries in parts

Any text is read as a query, also one with stray brackets, repeated dots or ticks inside a key.  The
reader never looks back at the segments that it has finished (`Scan.foldl_step_behind`), and whether
a tick is open depends on the number of ticks alone (`Scan.quoted_foldl_step_iff`).  So behind a
text with all its ticks closed, a dot or a bracket ends what is pending there, and the reader starts
afresh.

The main statement `ofQuery_parts` says this for another query behind a dot, for `[]` and for a text
in brackets; and no query has an empty segment.
-/

namespace Manifest.Path

namespace Scan

/-! ### Segments that are finished -/

/-- The state with more finished segments in front of its own. -/
def behind (done : Path) (s : Scan) : Scan := { s with segments := done ++ s.segments }

section Behind
variable (done : Path) (s : Scan)

theorem flush_behind (bracket : Bool) :
    (s.behind done).flush bracket = (s.flush bracket).behind done := by
  unfold flush behind
  dsimp only
  split
  · rw [List.append_assoc]
  · split
    · rw [List.append_assoc]
    · rfl

theorem step_behind (c : Char) : (s.behind done).step c = (s.step c).behind done := by
  have hq : (s.behind done).quoted = s.quoted := rfl
  unfold step
  rw [hq, flush_behind, flush_behind, apply_ite (behind done), apply_ite (behind done),
    apply_ite (behind done)]
  rfl

/-- **The finished segments are carried along.** -/
theorem foldl_step_behind (text : List Char) :
    text.foldl step (s.behind done) = (text.foldl step s).behind done := by
  induction text generalizing s with
  | nil => rfl
  | cons c rest ih => rw [List.foldl_cons, step_behind, ih, List.foldl_cons]

end Behind

/-! ### Ticks -/

section Ticks
variable {s : Scan}

theorem quoted_step_tick : (s.step tick).quoted = !s.quoted := by
  cases hq : s.quoted with
  | true => rw [step_tick_of_quoted hq]; rfl
  | false => rw [step_tick_of_not_quoted hq]; rfl

theorem quoted_step_of_ne {c : Char} (hc : c ≠ tick) : (s.step c).quoted = s.quoted := by
  unfold step
  rw [if_neg hc]
  split <;> rfl

/-- **Ticks are open behind a text as they were in front of it exactly if it has an even number of
ticks.** -/
theorem quoted_foldl_step_iff (text : List Char) :
    (text.foldl step s).quoted = s.quoted ↔ Even (text.count tick) := by
  induction text generalizing s with
  | nil => simp
  | cons c rest ih =>
    rw [List.foldl_cons]
    by_cases hc : c = tick
    · subst hc
      rw [List.count_cons_self, Nat.even_add_one, ← ih (s := s.step tick), quoted_step_tick,
        Bool.eq_not, not_not]
    · rw [List.count_cons_of_ne hc, ← ih (s := s.step c), quoted_step_of_ne hc]

theorem read_of_even {text : String} (h : Even (text.toList.count tick)) :
    (text.toList.foldl step {}).Read (ofQuery text) := by
  have hq : (text.toList.foldl step {}).quoted = false := (quoted_foldl_step_iff _).mpr h
  unfold Read ofQuery flush
  rw [hq]

end Ticks

/-! ### Empty segments -/

section Empty
variable {s : Scan} (h : "" ∉ s.segments)
include h

theorem empty_notMem_flush (bracket : Bool) : "" ∉ (s.flush bracket).segments := by
  unfold flush
  dsimp only
  split
  · next hp =>
    rw [List.mem_append, not_or, List.mem_singleton]
    refine ⟨h, fun he => hp ?_⟩
    rw [← String.toList_ofList (l := s.pending), ← he]
    rfl
  · split
    · rw [List.mem_append, not_or, List.mem_singleton]
      exact ⟨h, by decide⟩
    · exact h

theorem empty_notMem_step (c : Char) : "" ∉ (s.step c).segments := by
  unfold step
  split
  · split
    · exact empty_notMem_flush h false
    · exact h
  · split
    · exact empty_notMem_flush h _
    · exact h

theorem empty_notMem_foldl_step (text : List Char) : "" ∉ (text.foldl step s).segments := by
  induction text generalizing s with
  | nil => exact h
  | cons c rest ih => exact ih (empty_notMem_step h c)

end Empty

end Scan

open Scan

/-! ### Queries -/

section Parts
variable {a : String}

theorem ofQuery_append_of_read {more : String} {done : Path}
    (h : (more.toList.foldl step (a.toList.foldl step {})).Read done) :
    ofQuery (a ++ more) = done := by
  rw [ofQuery, String.toList_append, List.foldl_append]
  exact congrArg Scan.segments h

theorem ofQuery_dot (h : Even (a.toList.count tick)) (b : String) :
    ofQuery (a ++ "." ++ b) = ofQuery a ++ ofQuery b := by
  have hread := read_of_even h
  have hdot : (a.toList.foldl step {}).step '.' = behind (ofQuery a) {} := by
    rw [step_delimiter hread.not_quoted rfl, behind, List.append_nil]
    exact hread
  have hfold : (a ++ "." ++ b).toList.foldl step {} =
      (b.toList.foldl step {}).behind (ofQuery a) := by
    rw [String.toList_append, String.toList_append, List.foldl_append, List.foldl_append]
    show b.toList.foldl step ((a.toList.foldl step {}).step '.') = _
    rw [hdot, foldl_step_behind]
  rw [ofQuery, hfold, flush_behind]
  rfl

end Parts

/-- **Queries are read part by part.**  Behind a text with an even number of ticks, whatever else
stands in it, a dot is followed by the segments of what comes after it, `[]` is one more `-`, and
brackets around a text without dots, brackets and ticks are one more segment.  No query has an empty
segment. -/
theorem ofQuery_parts :
    (∀ a : String, Even (a.toList.count tick) →
      (∀ b, ofQuery (a ++ "." ++ b) = ofQuery a ++ ofQuery b) ∧
      ofQuery (a ++ "[]") = ofQuery a ++ [traversal] ∧
      ∀ segment : String, segment ≠ "" → tick ∉ segment.toList →
        (∀ c ∈ segment.toList, isDelimiter c = false) →
        ofQuery (a ++ "[" ++ segment ++ "]") = ofQuery a ++ [segment]) ∧
    ∀ text, "" ∉ ofQuery text := by
  refine ⟨fun a ha => ⟨ofQuery_dot ha, ?_, fun segment hn ht hd => ?_⟩, fun text => ?_⟩
  · exact ofQuery_append_of_read (read_of_even ha).any
  · have htext : (("[" : String) ++ segment ++ "]").toList = '[' :: segment.toList ++ [']'] := by
      simp
    have hread := (read_of_even ha).bracketed hn ht hd
    rw [← htext] at hread
    have hparts : a ++ "[" ++ segment ++ "]" = a ++ ("[" ++ segment ++ "]") := by
      simp [String.append_assoc]
    rw [hparts]
    exact ofQuery_append_of_read hread
  · exact empty_notMem_flush (empty_notMem_foldl_step (by simp) _) false

/-- Stray brackets, a tick in the middle of a key, and a tick that is never closed. -/
theorem ofQuery_parts_of_stray_marks :
    let a := "x]y\x27u.v\x27[w"
    Even (a.toList.count tick) ∧ ofQuery a = ["x", "u.v", "w"] ∧
      ofQuery (a ++ "." ++ "\x27b[") = ["x", "u.v", "w", "b["] ∧
      ofQuery (a ++ "[]") = ["x", "u.v", "w", "-"] ∧
      ofQuery (a ++ "[" ++ "k" ++ "]") = ["x", "u.v", "w", "k"] := by
  intro a
  have ha : Even (a.toList.count tick) := by decide +kernel
  have hq : ofQuery a = ["x", "u.v", "w"] := by decide +kernel
  have hb : ofQuery "\x27b[" = ["b["] := by decide +kernel
  have hk : ∀ c ∈ "k".toList, isDelimiter c = false := by
    intro c hc
    obtain rfl : c = 'k' := by simpa using hc
    decide
  obtain ⟨hdot, hany, hsegment⟩ := ofQuery_parts.1 a ha
  refine ⟨ha, hq, ?_, ?_, ?_⟩
  · rw [hdot, hq, hb]
    rfl
  · rw [hany, hq]
    rfl
  · rw [hsegment "k" (by decide) (by decide +kernel) hk, hq]
    rfl

end Manifest.Path
