import Manifest.Proofs.Targets
import Manifest.Proofs.Writing

/-!
# Visits that rewrite

A rewriter takes the targets of its path (`Value.targets`), all of them or the first one, and what a
visit of it comes to is told by them (`Rewrites`): without a target it fails and changes nothing,
with one it succeeds, and the values that it is offered are those of the targets it takes, in their
order.  `visit_rewrites` proves this for every path and node, by induction on the path; the two
traversals of an array (`scanFirst_rewrites`, `scanAll_rewrites`) are inductions on the elements
ahead.

A visitor that does not rewrite leaves every document as it is, whatever it accepts
(`run_looking_left`).  The main statement is `run_writes_only_on_success`.
-/

namespace Manifest

/-- The values that were offered for rewriting, in the order in which they were. -/
def History.offered (history : History) : List Value :=
  history.reverse.filterMap fun
    | .rewritten value => some value
    | _ => none

namespace History

theorem offered_cons (e : Event) (history : History) :
    offered (e :: history) = offered history ++ offered [e] := by
  simp only [offered, List.reverse_cons, List.filterMap_append, List.reverse_nil, List.nil_append]

@[simp] theorem offered_rewritten (value : Value) (history : History) :
    offered (.rewritten value :: history) = offered history ++ [value] := offered_cons _ _

@[simp] theorem offered_sighted (value : Value) (trail : Trail) (left : Option Value)
    (history : History) : offered (.sighted value trail left :: history) = offered history :=
  (offered_cons _ _).trans (List.append_nil _)

@[simp] theorem offered_missed (path : Path) (history : History) :
    offered (.missed path :: history) = offered history :=
  (offered_cons _ _).trans (List.append_nil _)

end History

open Value

/-! ### What a visit comes to -/

/-- The targets that a visit takes of those that it has: all, or the first. -/
def taken (every : Bool) (targets : List (Path × Option Value)) : List (Path × Option Value) :=
  if every then targets else targets.take 1

@[simp] theorem taken_nil (every : Bool) : taken every [] = [] := by
  cases every <;> rfl

@[simp] theorem taken_singleton (every : Bool) (e : Path × Option Value) :
    taken every [e] = [e] := by
  cases every <;> rfl

theorem taken_map (every : Bool) (f : Path × Option Value → Path × Option Value)
    (targets : List (Path × Option Value)) :
    taken every (targets.map f) = (taken every targets).map f := by
  cases every <;> simp [taken]

theorem mem_of_mem_taken {every : Bool} {targets : List (Path × Option Value)}
    {e : Path × Option Value} (h : e ∈ taken every targets) : e ∈ targets := by
  unfold taken at h
  split at h
  · exact h
  · exact List.mem_of_mem_take h

/-- What a visit that rewrites comes to: `targets` are those below the end of the trail, and `left`
is what stands there before. -/
structure Rewrites {α : Type} (every : Bool) (targets : List (Path × Option Value))
    (history : History) (left : α) (o : Outcome α) : Prop where
  failed : targets = [] →
    o.left = left ∧ ∃ fault, o.result = .error fault ∧ fault.isStructural = true
  succeeded : targets ≠ [] → ∃ r, o.result = .ok r
  offered : o.history.offered =
    history.offered ++ (taken every targets).map fun e => e.2.getD .absent

namespace Rewrites

variable {α β : Type} {every : Bool} {targets : List (Path × Option Value)} {history : History}
  {left : α} {o : Outcome α}

theorem eq_nil_of_error (h : Rewrites every targets history left o) {fault : Fault}
    (he : o.result = .error fault) : targets = [] ∧ fault.isStructural = true := by
  have ht : targets = [] := by
    by_contra ht
    obtain ⟨r, hok⟩ := h.succeeded ht
    rw [he] at hok
    cases hok
  obtain ⟨-, fault', hr, hs⟩ := h.failed ht
  rw [he] at hr
  cases hr
  exact ⟨ht, hs⟩

theorem offered_of_nil (h : Rewrites every targets history left o) (ht : targets = []) :
    o.history.offered = history.offered := by
  rw [h.offered, ht, taken_nil, List.map_nil, List.append_nil]

theorem enter (h : Rewrites every targets history left o) (segment : String) (f : α → β) :
    Rewrites every (targets.map fun e => (segment :: e.1, e.2)) history (f left) (o.map f) := by
  refine ⟨fun he => ?_, fun he => ?_, ?_⟩
  · obtain ⟨hl, hr⟩ := h.failed (List.map_eq_nil_iff.mp he)
    exact ⟨by rw [Outcome.left_map, hl], hr⟩
  · exact h.succeeded fun hn => he (by rw [hn, List.map_nil])
  · rw [Outcome.history_map, h.offered, taken_map, List.map_map]
    rfl

end Rewrites

namespace Visitor

variable (f : History → Value → Value) (every : Bool) (budget : Nat)

theorem target_rewrites {α : Type} (trail : Trail) (stands : Option Value) (history : History)
    (q : Path) (left : α) (g : Option Value → α) :
    Rewrites every [(q, stands)] history left
      (((rewriter f every).target trail stands history).map g) := by
  rw [target_rewriter]
  refine ⟨fun he => (by cases he), fun _ => ⟨_, rfl⟩, ?_⟩
  simp [Outcome.map]

/-! ### Traversals -/

section Traversals
variable {rest : Path} {trail : Trail} {descend : Descent}

/-- A descent that comes to the targets of a path below every element. -/
def DescentRewrites (every : Bool) (rest : Path) (trail : Trail) (descend : Descent) : Prop :=
  ∀ frame x history, Rewrites every (targets every rest x) history (some x)
    (descend (frame :: trail) x history)

theorem scanFirst_rewrites (hd : DescentRewrites false rest trail descend) :
    ∀ (ahead behind : List Value) (history : History),
      Rewrites false (targetsBelow false rest ahead behind.length) history
        (behind.reverse ++ ahead) (scanFirst descend trail behind ahead history)
  | [], behind, history => by
    refine ⟨fun _ => ⟨by simp [scanFirst, Outcome.miss, Outcome.fail], _, rfl, rfl⟩,
      fun h => absurd rfl h, ?_⟩
    simp [scanFirst, Outcome.miss, Outcome.fail]
  | x :: ahead, behind, history => by
    have hx := hd (.element (indexSegment behind.length) behind ahead) x history
    rw [targetsBelow_cons]
    generalize ho : descend (.element (indexSegment behind.length) behind ahead :: trail) x
      history = o at hx
    cases ht : targets false rest x with
    | nil =>
      -- the element has no target, so it is as before and the traversal goes on behind it
      obtain ⟨hl, fault, hr, hf⟩ := hx.failed ht
      have ih := scanFirst_rewrites hd ahead (x :: behind) o.history
      rw [scanFirst_cons_of_error ho hr hf, hl]
      refine ⟨fun he => ?_, ih.succeeded, ih.offered.trans (by rw [hx.offered_of_nil ht]; rfl)⟩
      obtain ⟨hleft, hfault⟩ := ih.failed he
      exact ⟨hleft.trans (by simp), hfault⟩
    | cons e es =>
      obtain ⟨r, hr⟩ := hx.succeeded (by simp [ht])
      rw [scanFirst_cons_of_ok ho hr, List.map_cons, List.cons_append]
      refine ⟨fun he => (by cases he), fun _ => ⟨r, rfl⟩, ?_⟩
      rw [hx.offered, ht]
      rfl

/-- The traversal to all targets, after some results.  Elements that were removed no longer count
for the positions of those ahead, so the position at which these stood is given apart. -/
theorem scanAll_rewrites_from (hd : DescentRewrites true rest trail descend) :
    ∀ (ahead results behind : List Value) (position : Nat) (history : History),
      let o := scanAll descend trail results behind ahead history
      let below := targetsBelow true rest ahead position
      (results = [] → below = [] →
        o.left = behind.reverse ++ ahead ∧ o.result = .error (.notFound traversal)) ∧
      (results ≠ [] ∨ below ≠ [] → ∃ r, o.result = .ok r) ∧
      o.history.offered = history.offered ++ below.map fun e => e.2.getD .absent
  | [], results, behind, position, history => by
    dsimp only
    cases hc : collect results.reverse with
    | none =>
      obtain rfl : results = [] := List.reverse_eq_nil_iff.mp (collect_eq_none_iff.mp hc)
      simp only [scanAll, hc, Outcome.miss, Outcome.fail]
      simp
    | some r =>
      have hn : results ≠ [] := by
        rintro rfl
        simp [collect] at hc
      simp only [scanAll, hc]
      exact ⟨fun h => absurd h hn, fun _ => ⟨r, rfl⟩, by simp⟩
  | x :: ahead, results, behind, position, history => by
    have hx := hd (.element (indexSegment behind.length) behind ahead) x history
    rw [targetsBelow_cons]
    generalize ho : descend (.element (indexSegment behind.length) behind ahead :: trail) x
      history = o at hx
    dsimp only
    cases ht : targets true rest x with
    | nil =>
      obtain ⟨hl, fault, hr, hf⟩ := hx.failed ht
      obtain ⟨h1, h2, h3⟩ :=
        scanAll_rewrites_from hd ahead results (x :: behind) (position + 1) o.history
      rw [scanAll_cons_of_error ho hr hf, hl]
      refine ⟨fun hn hb => ?_, h2, h3.trans (by rw [hx.offered_of_nil ht]; rfl)⟩
      obtain ⟨hleft, hfault⟩ := h1 hn hb
      exact ⟨hleft.trans (by simp), hfault⟩
    | cons e es =>
      obtain ⟨r, hr⟩ := hx.succeeded (by simp [ht])
      obtain ⟨-, h2, h3⟩ := scanAll_rewrites_from hd ahead (r :: results) (o.left.toList ++ behind)
        (position + 1) o.history
      rw [scanAll_cons_of_ok ho hr]
      refine ⟨fun _ h => by simp at h, fun _ => h2 (Or.inl (by simp)), h3.trans ?_⟩
      rw [hx.offered, ht]
      simp [taken, Function.comp_def]

theorem scanAll_rewrites (hd : DescentRewrites true rest trail descend) (items : List Value)
    (history : History) :
    Rewrites true (targetsBelow true rest items 0) history items
      (scanAll descend trail [] [] items history) := by
  obtain ⟨h1, h2, h3⟩ := scanAll_rewrites_from hd items [] [] 0 history
  refine ⟨fun ht => ?_, fun ht => h2 (Or.inr ht), h3⟩
  obtain ⟨hl, hr⟩ := h1 rfl ht
  exact ⟨hl, _, hr, rfl⟩

end Traversals

theorem taken_targets_last (items : List Value) :
    taken false (targets false [traversal] (array items)) = [([indexSegment 0], items[0]?)] := by
  rw [targets_traversal]
  cases items with
  | nil => rfl
  | cons x rest => rw [targetsBelow_cons]; rfl

theorem traverse_rewrites {rest : Path} {trail : Trail}
    (hd : DescentRewrites every rest trail ((rewriter f every).visit budget rest))
    (items : List Value) (history : History) :
    Rewrites every (targets every (traversal :: rest) (array items)) history items
      ((rewriter f every).traverse budget ((rewriter f every).visit budget rest) rest.isEmpty trail
        items history) := by
  cases every with
  | true =>
    rw [targets_traversal, if_neg (by simp), List.append_nil]
    exact scanAll_rewrites hd items history
  | false =>
    cases rest with
    | nil =>
      obtain ⟨inner, stands, ha⟩ := appendAt_rewriter f false trail history items 0
      have ht := taken_targets_last items
      show Rewrites false _ history items ((rewriter f false).traverse budget _ true trail items
        history)
      rw [traverse_rewriter_last, ha]
      refine ⟨fun hn => ?_, fun _ => ⟨_, rfl⟩, ?_⟩
      · rw [hn] at ht
        cases ht
      · rw [ht]
        simp
    | cons segment rest =>
      rw [targets_traversal, if_neg (by simp), List.append_nil]
      exact scanFirst_rewrites hd items [] history

/-! ### The way down -/

/-- **What a visit that rewrites comes to.** -/
theorem visit_rewrites (path : Path) (trail : Trail) (node : Value) (history : History) :
    Rewrites every (targets every path node) history (some node)
      ((rewriter f every).visit budget path trail node history) := by
  induction path generalizing trail node history with
  | nil => exact target_rewrites f every trail (some node) history [] (some node) id
  | cons segment rest ih =>
    cases node.step trail.key segment with
    | misfit fault hm =>
      rw [visit_misfit _ _ _ _ _ hm, targets_of_misfit every hm]
      refine ⟨fun _ => ⟨rfl, fault, rfl, (isStructural_of_misfit hm).1⟩, fun h => absurd rfl h, ?_⟩
      simp [Outcome.fail]
    | child child hm hc =>
      obtain ⟨frame, -, hfill, -, hv⟩ :=
        visit_child (rewriter f every) budget trail history rest hc
      have hleft : some node = some (frame.fill (some child)) := by
        rw [hfill, putChild_of_child? hc]
      rw [hv, targets_of_child? every hc, hleft]
      exact (ih (frame :: trail) child history).enter segment fun left => some (frame.fill left)
    | spread items hv hs =>
      subst hv hs
      have hd : DescentRewrites every rest trail ((rewriter f every).visit budget rest) :=
        fun frame x h => ih (frame :: trail) x h
      have h := traverse_rewrites f every budget hd items history
      rw [visit_any _ _ _ _ _ _ Role.ofSegment_traversal]
      refine ⟨fun ht => ?_, h.succeeded, h.offered⟩
      obtain ⟨hl, hr⟩ := h.failed ht
      exact ⟨by rw [Outcome.left_map, hl], hr⟩
    | missing hm hs hc =>
      rcases targets_of_missing every hm hs hc rest with
        ⟨kind, members, rfl, rfl, hk, hg, ht⟩ | ⟨hv, ht⟩
      · rw [visit_new_member _ _ _ _ hk hg rfl, ht]
        exact target_rewrites f every _ none history _ _ _
      · have hv' : rest ≠ [] ∨ (rewriter f every).rewrite = none ∨ node.members? = none :=
          hv.imp_right Or.inr
        rw [visit_missing _ _ _ _ hm hs hc hv', ht]
        refine ⟨fun _ => ⟨rfl, _, rfl, rfl⟩, fun h => absurd rfl h, ?_⟩
        simp [Outcome.miss, Outcome.fail]

/-- **What a rewriter of a document comes to.** -/
theorem run_rewrites (root : Value) (path : Path) :
    Rewrites every (targets every path root) [] root
      ((rewriter f every).run budget root path) := by
  cases path with
  | nil => exact ⟨fun h => (by cases h), fun _ => ⟨_, rfl⟩, by cases every <;> rfl⟩
  | cons segment rest =>
    have h := visit_rewrites f every budget (segment :: rest) [] root []
    refine ⟨fun ht => ?_, h.succeeded, h.offered⟩
    obtain ⟨hl, hr⟩ := h.failed ht
    refine ⟨?_, hr⟩
    show ((rewriter f every).visit budget (segment :: rest) [] root []).left.getD root = root
    rw [hl]
    rfl

/-! ### Visits that write nothing -/

section Looking
variable {v : Visitor}

theorem judge_left {α : Type} (walked : Path) (trail : Trail) (value : Value)
    (stands : Option Value) (left : α) (history : History) :
    (v.judge walked trail value stands left history).left = left := by
  unfold judge
  dsimp only
  split <;> rfl

theorem visit_looking_left (hv : v.rewrite = none) (path : Path) (trail : Trail) (node : Value)
    (history : History) : (v.visit budget path trail node history).left = some node := by
  induction path generalizing trail node history with
  | nil =>
    rw [visit_nil]
    simp only [target, hv]
    exact judge_left _ _ _ _ _ _
  | cons segment rest ih =>
    cases node.step trail.key segment with
    | misfit fault hm =>
      rw [visit_misfit _ _ _ _ _ hm]
      rfl
    | child child hm hc =>
      obtain ⟨frame, -, hfill, -, hvisit⟩ := visit_child v budget trail history rest hc
      rw [hvisit, Outcome.left_map, ih, hfill, putChild_of_child? hc]
    | spread items hi hs =>
      subst hi hs
      have hd : DescentKeeps (fun left _ => left = items) trail (v.visit budget rest) :=
        fun behind ahead x history (hx : behind.reverse ++ x :: ahead = items) => by
          dsimp only
          rw [ih, rejoin_some, hx]
      rw [visit_any _ _ _ _ _ _ Role.ofSegment_traversal, Outcome.left_map]
      unfold traverse
      split
      · rw [scanAll_keeps hd (fun _ _ _ h => h) items [] [] history rfl]
      · rw [hv, scanFirst_keeps hd (fun _ _ _ h => h) items [] history rfl]
    | missing hm hs hc =>
      rw [visit_missing _ _ _ _ hm hs hc (Or.inr (Or.inl hv))]
      rfl

/-- **A visitor that does not rewrite leaves the document as it is**, whatever it accepts. -/
theorem run_looking_left (hv : v.rewrite = none) (root : Value) (path : Path) :
    (v.run budget root path).left = root := by
  cases path with
  | nil =>
    show (v.targetRoot root).left = root
    simp only [targetRoot, hv]
    exact judge_left _ _ _ _ _ _
  | cons segment rest =>
    show (v.visit budget (segment :: rest) [] root []).left.getD root = root
    rw [visit_looking_left budget hv]
    rfl

end Looking

/-- **A visit writes only if it succeeds.**  A visitor that does not rewrite leaves the document as
it is, whatever it accepts.  One that rewrites and accepts everything has been offered nothing and
has changed nothing if it fails; if it wants one target and succeeds, it has been offered exactly
one value. -/
theorem run_writes_only_on_success (budget : Nat) (root : Value) (path : Path) :
    (∀ every accept, (Visitor.run { every, accept } budget root path).left = root) ∧
      (∀ f every fault, ((rewriter f every).run budget root path).result = .error fault →
        ((rewriter f every).run budget root path).history.offered = [] ∧
          ((rewriter f every).run budget root path).left = root) ∧
      ∀ f value, ((rewriter f false).run budget root path).result = .ok value →
        ((rewriter f false).run budget root path).history.offered.length = 1 := by
  refine ⟨fun every accept => run_looking_left budget rfl root path, fun f every fault h => ?_,
    fun f value h => ?_⟩
  · have hr := run_rewrites f every budget root path
    obtain ⟨ht, -⟩ := hr.eq_nil_of_error h
    exact ⟨hr.offered_of_nil ht, (hr.failed ht).1⟩
  · have hr := run_rewrites f false budget root path
    cases ht : targets false path root with
    | nil =>
      obtain ⟨-, fault, hf, -⟩ := hr.failed ht
      rw [hf] at h
      cases h
    | cons e rest =>
      rw [hr.offered, ht]
      rfl

/-- Elements that fail are passed over unchanged, also if all of them fail. -/
theorem run_writes_only_on_success_of_nested :
    let root := object [("a", array [string "x", object [("b", array [])]])]
    let v := rewriter (fun _ _ => string "y") false
    (v.run 0 root ["a", "-", "b", "-"]).result = .ok (string "y") ∧
      (v.run 0 root ["a", "-", "b", "-"]).history.offered.length = 1 ∧
      (v.run 0 root ["a", "-", "b", "c"]).result = .error (.notFound "-") ∧
      (v.run 0 root ["a", "-", "b", "c"]).history.offered = [] ∧
      (v.run 0 root ["a", "-", "b", "c"]).left = root := by
  intro root v
  have hok : (v.run 0 root ["a", "-", "b", "-"]).result = .ok (string "y") := by rfl
  have hfail : (v.run 0 root ["a", "-", "b", "c"]).result = .error (.notFound "-") := by rfl
  obtain ⟨hnone, hleft⟩ :=
    (run_writes_only_on_success 0 root ["a", "-", "b", "c"]).2.1 _ false _ hfail
  exact ⟨hok, (run_writes_only_on_success 0 root ["a", "-", "b", "-"]).2.2 _ _ hok, hfail, hnone,
    hleft⟩

end Visitor

end Manifest
