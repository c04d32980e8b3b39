import Manifest.Proofs.Obstacles

/-!
# Visits that only look

A reader accepts targets by their value alone and writes nothing.  The targets it accepts are the
instances of its path with such a value (`Value.hits`), and what a visit of it comes to is told by
them (`Reads`): it leaves the document as it is, succeeds exactly if there is a hit, and shows
the visitor the hits in their order, all of them or the first one.

`visit_reads` proves this for every path and node, by induction on the path; the two traversals of
an array (`scanFirst_reads`, `scanAll_reads`) are inductions on the elements ahead.  What a visit
without a hit reports last is the place where the path stops (`Value.stop`), and it fails with the
segment under which nothing is found there (`Value.gap`, `visit_reader_missed`).
-/

namespace Manifest

/-- The paths of the accepted targets, in the order in which they were seen. -/
def History.accepted (p : Value → Bool) (history : History) : List Path :=
  history.reverse.filterMap fun
    | .sighted value trail _ => if p value then some trail.path else none
    | _ => none

namespace History

theorem accepted_cons (p : Value → Bool) (e : Event) (history : History) :
    accepted p (e :: history) = accepted p history ++ accepted p [e] := by
  simp only [accepted, List.reverse_cons, List.filterMap_append, List.reverse_nil, List.nil_append]

theorem accepted_missed (p : Value → Bool) (path : Path) (history : History) :
    accepted p (.missed path :: history) = accepted p history := by
  rw [accepted_cons]
  exact List.append_nil _

theorem accepted_sighted (p : Value → Bool) (value : Value) (trail : Trail) (stands : Option Value)
    (history : History) :
    accepted p (.sighted value trail stands :: history) =
      accepted p history ++ if p value then [trail.path] else [] := by
  rw [accepted_cons]
  by_cases h : p value <;> simp [accepted, h]

end History

namespace Value

/-- The instances of a path that hold an accepted value. -/
def hits (p : Value → Bool) (path : Path) (v : Value) : List (Path × Value) :=
  (instances path v).filter fun e => p e.2

theorem hits_of_all {p : Value → Bool} (hp : ∀ v, p v = true) (path : Path) (v : Value) :
    hits p path v = instances path v :=
  List.filter_eq_self.mpr fun e _ => hp e.2

theorem hits_of_child? (p : Value → Bool) {v child : Value} {segment : String}
    (h : v.child? segment = some child) (rest : Path) :
    hits p (segment :: rest) v = (hits p rest child).map fun e => (segment :: e.1, e.2) := by
  unfold hits
  rw [instances_of_child? h, List.filter_map]
  rfl

/-- The hits below the elements of an array, the first of which stands at a position. -/
def hitsBelow (p : Value → Bool) (rest : Path) (items : List Value) (position : Nat) :
    List (Path × Value) :=
  (items.zipIdx position).flatMap fun e =>
    (hits p rest e.1).map fun b => (indexSegment e.2 :: b.1, b.2)

@[simp] theorem hitsBelow_nil (p : Value → Bool) (rest : Path) (position : Nat) :
    hitsBelow p rest [] position = [] := rfl

theorem hitsBelow_cons (p : Value → Bool) (rest : Path) (x : Value) (items : List Value)
    (position : Nat) :
    hitsBelow p rest (x :: items) position =
      ((hits p rest x).map fun b => (indexSegment position :: b.1, b.2)) ++
        hitsBelow p rest items (position + 1) := by
  rw [hitsBelow, List.zipIdx_cons, List.flatMap_cons]
  rfl

theorem hits_traversal (p : Value → Bool) (rest : Path) (items : List Value) :
    hits p (traversal :: rest) (array items) = hitsBelow p rest items 0 := by
  unfold hits hitsBelow
  rw [instances_cons, branches_any items Role.ofSegment_traversal, List.flatMap_map,
    List.filter_flatMap]
  refine List.flatMap_congr fun e _ => ?_
  rw [List.filter_map]
  rfl

theorem hits_of_missing (p : Value → Bool) {v : Value} {segment : String} (hs : segment ≠ traversal)
    (hc : v.child? segment = none) (rest : Path) : hits p (segment :: rest) v = [] := by
  have hr : Role.ofSegment segment ≠ .any := fun h => hs (Role.ofSegment_eq_any_iff.mp h)
  unfold hits
  rw [instances_cons, branches_of_child?_none hc (Or.inl hr)]
  rfl

theorem hits_of_obstacle (p : Value → Bool) {key : String} {path : Path} {v : Value} {fault : Fault}
    (h : obstacle key path v = some fault) : hits p path v = [] := by
  unfold hits
  rw [instances_of_obstacle h]
  rfl

end Value

open Value

/-! ### What a visit comes to -/

/-- What a visit that only looks comes to: `hits` are the accepted targets below the end of `trail`,
and `left` is what stands there. -/
structure Reads {α : Type} (p : Value → Bool) (every : Bool) (trail : Trail)
    (hits : List (Path × Value)) (history : History) (left : α) (o : Outcome α) : Prop where
  left_eq : o.left = left
  failed : hits = [] → ∃ fault, o.result = .error fault ∧ fault.isStructural = true
  found : ∀ e rest, hits = e :: rest → ∃ r, o.result = .ok r ∧ (every = false → r = e.2)
  accepted : o.history.accepted p =
    history.accepted p ++ (if every then hits else hits.take 1).map fun e => trail.path ++ e.1
  last : every = false → ∀ e rest, hits = e :: rest → ∃ inner stands older,
    o.history = .sighted e.2 inner stands :: older ∧ Trail.path inner = trail.path ++ e.1

namespace Reads

variable {α β : Type} {p : Value → Bool} {every : Bool} {trail : Trail}
  {hits : List (Path × Value)} {history : History} {left : α} {o : Outcome α}

theorem enter {frame : Frame} (h : Reads p every (frame :: trail) hits history left o)
    (f : α → β) :
    Reads p every trail (hits.map fun e => (frame.segment :: e.1, e.2)) history (f left)
      (o.map f) := by
  refine ⟨by rw [Outcome.left_map, h.left_eq], fun he => ?_, fun e rest he => ?_, ?_,
    fun hv e rest he => ?_⟩
  · exact h.failed (List.map_eq_nil_iff.mp he)
  · obtain ⟨e', rest', hh, rfl, -⟩ := List.map_eq_cons_iff.mp he
    exact h.found e' rest' hh
  · rw [Outcome.history_map, h.accepted]
    cases every with
    | true => simp [List.map_map, Function.comp_def]
    | false => simp [List.map_map, Function.comp_def]
  · obtain ⟨e', rest', hh, rfl, -⟩ := List.map_eq_cons_iff.mp he
    obtain ⟨inner, stands, older, ho, hp⟩ := h.last hv e' rest' hh
    exact ⟨inner, stands, older, ho, by rw [hp, Trail.path_cons]; simp⟩

end Reads

namespace Visitor

/-- A visitor that writes nothing and accepts targets by their value. -/
def reader (p : Value → Bool) (every : Bool) : Visitor where
  every := every
  accept := fun _ value _ => .ok (p value)

variable (p : Value → Bool) (every : Bool) (budget : Nat)

theorem target_reads (trail : Trail) (node : Value) (history : History) :
    Reads p every trail (hits p [] node) history (some node)
      ((reader p every).target trail (some node) history) := by
  have ht : (reader p every).target trail (some node) history =
      if p node then ⟨.ok node, some node, .sighted node trail (some node) :: history⟩
      else .miss trail.path "" (some node) (.sighted node trail (some node) :: history) := by
    cases h : p node <;> simp [target, judge, reader, h]
  rw [ht]
  by_cases h : p node
  · have hh : hits p [] node = [([], node)] := by simp [hits, h]
    rw [if_pos h, hh]
    refine ⟨rfl, fun he => (by cases he), fun e rest he => ?_, ?_, fun _ e rest he => ?_⟩
    · cases he
      exact ⟨node, rfl, fun _ => rfl⟩
    · rw [History.accepted_sighted, if_pos h]
      cases every <;> simp
    · cases he
      exact ⟨trail, some node, history, rfl, by simp⟩
  · have hh : hits p [] node = [] := by simp [hits, h]
    rw [if_neg h, hh]
    refine ⟨rfl, fun _ => ⟨_, rfl, rfl⟩, fun e rest he => (by cases he), ?_,
      fun _ e rest he => (by cases he)⟩
    simp only [Outcome.miss, Outcome.fail]
    rw [History.accepted_missed, History.accepted_sighted, if_neg h]
    cases every <;> simp

/-! ### Traversals -/

/-- A descent that comes to the hits of a path below every element. -/
def DescentReads (rest : Path) (trail : Trail) (descend : Descent) : Prop :=
  ∀ frame x history,
    Reads p every (frame :: trail) (hits p rest x) history (some x)
      (descend (frame :: trail) x history)

variable {p} {rest : Path} {trail : Trail} {descend : Descent}

theorem scanFirst_error {fault : Fault} : ∀ (ahead behind : List Value) (history : History),
    (scanFirst descend trail behind ahead history).result = .error fault →
      fault.isStructural = true →
        fault = .notFound traversal ∧ ∃ older,
          (scanFirst descend trail behind ahead history).history =
            .missed (trail.path ++ [traversal]) :: older
  | [], behind, history, h, _ => by
    simp only [scanFirst, Outcome.miss, Outcome.fail, Except.error.injEq] at h
    exact ⟨h.symm, history, rfl⟩
  | x :: ahead, behind, history, h, hs => by
    unfold scanFirst at h ⊢
    dsimp only at h ⊢
    cases hr : (descend (.element (indexSegment behind.length) behind ahead :: trail) x
        history).result with
    | ok r => simp [hr] at h
    | error fault' =>
      simp only [hr] at h ⊢
      by_cases hf : fault'.isStructural = true
      · rw [if_pos hf] at h ⊢
        exact scanFirst_error ahead _ _ h hs
      · rw [if_neg hf] at h
        simp only [Outcome.fail, Except.error.injEq] at h
        exact absurd (h ▸ hs) hf

theorem scanFirst_reads (hd : DescentReads p false rest trail descend) :
    ∀ (ahead behind : List Value) (history : History),
      Reads p false trail (hitsBelow p rest ahead behind.length) history (behind.reverse ++ ahead)
        (scanFirst descend trail behind ahead history)
  | [], behind, history => by
    refine ⟨by simp [scanFirst, Outcome.miss, Outcome.fail], fun _ => ⟨_, rfl, rfl⟩,
      fun e r he => (by cases he), ?_, fun _ e r he => (by cases he)⟩
    simp only [scanFirst, Outcome.miss, Outcome.fail]
    rw [History.accepted_missed]
    simp
  | x :: ahead, behind, history => by
    have hx := hd (.element (indexSegment behind.length) behind ahead) x history
    rw [hitsBelow_cons]
    generalize ho : descend (.element (indexSegment behind.length) behind ahead :: trail) x
      history = o at hx
    cases hh : hits p rest x with
    | nil =>
      -- the element has no hit, so the traversal goes on behind it
      obtain ⟨fault, hr, hf⟩ := hx.failed hh
      have ih := scanFirst_reads hd ahead (x :: behind) o.history
      have ha : o.history.accepted p = history.accepted p := by
        rw [hx.accepted, hh]
        simp
      rw [scanFirst_cons_of_error ho hr hf, hx.left_eq]
      refine ⟨ih.left_eq.trans (by simp), ih.failed, ih.found, ?_, ih.last⟩
      exact ih.accepted.trans (by rw [ha]; rfl)
    | cons e es =>
      obtain ⟨r, hr, hre⟩ := hx.found e es hh
      rw [scanFirst_cons_of_ok ho hr, hx.left_eq, rejoin_some, List.map_cons, List.cons_append]
      refine ⟨rfl, fun he => (by cases he), fun e' rest' he => ?_, ?_, fun _ e' rest' he => ?_⟩
      · cases he
        exact ⟨r, rfl, hre⟩
      · rw [hx.accepted, hh]
        simp [Frame.segment]
      · cases he
        obtain ⟨inner, stands, older, hl, hp⟩ := hx.last rfl e es hh
        exact ⟨inner, stands, older, hl, by rw [hp]; simp [Frame.segment]⟩

theorem collect_eq_none_iff {results : List Value} : collect results = none ↔ results = [] := by
  rcases results with _ | ⟨r, _ | ⟨s, more⟩⟩ <;> simp [collect]

theorem scanAll_reads_from (hd : DescentReads p true rest trail descend) :
    ∀ (ahead results behind : List Value) (history : History),
      let o := scanAll descend trail results behind ahead history
      let below := hitsBelow p rest ahead behind.length
      o.left = behind.reverse ++ ahead ∧
        (results = [] → below = [] → o.result = .error (.notFound traversal)) ∧
        (results ≠ [] ∨ below ≠ [] → ∃ r, o.result = .ok r) ∧
        o.history.accepted p = history.accepted p ++ below.map fun e => trail.path ++ e.1
  | [], results, behind, history => by
    dsimp only
    cases hc : collect results.reverse with
    | none =>
      obtain rfl : results = [] := List.reverse_eq_nil_iff.mp (collect_eq_none_iff.mp hc)
      simp only [scanAll, hc, Outcome.miss, Outcome.fail]
      refine ⟨by simp, by simp, by simp, ?_⟩
      rw [History.accepted_missed]
      simp
    | some r =>
      have hn : results ≠ [] := by
        rintro rfl
        simp [collect] at hc
      simp only [scanAll, hc]
      exact ⟨by simp, fun h => absurd h hn, fun _ => ⟨r, rfl⟩, by simp⟩
  | x :: ahead, results, behind, history => by
    have hx := hd (.element (indexSegment behind.length) behind ahead) x history
    rw [hitsBelow_cons]
    generalize ho : descend (.element (indexSegment behind.length) behind ahead :: trail) x
      history = o at hx
    dsimp only
    cases hh : hits p rest x with
    | nil =>
      obtain ⟨fault, hr, hf⟩ := hx.failed hh
      obtain ⟨h1, h2, h3, h4⟩ := scanAll_reads_from hd ahead results (x :: behind) o.history
      have ha : o.history.accepted p = history.accepted p := by
        rw [hx.accepted, hh]
        simp
      rw [scanAll_cons_of_error ho hr hf, hx.left_eq]
      exact ⟨h1.trans (by simp), h2, h3, h4.trans (by rw [ha]; rfl)⟩
    | cons e es =>
      obtain ⟨r, hr, -⟩ := hx.found e es hh
      obtain ⟨h1, -, h3, h4⟩ := scanAll_reads_from hd ahead (r :: results) (x :: behind) o.history
      rw [scanAll_cons_of_ok ho hr, hx.left_eq]
      refine ⟨h1.trans (by simp), fun _ h => by simp at h, fun _ => h3 (Or.inl (by simp)), ?_⟩
      refine h4.trans ?_
      rw [hx.accepted, hh]
      simp [Frame.segment, List.map_map, Function.comp_def]

theorem scanAll_reads (hd : DescentReads p true rest trail descend) (items : List Value)
    (history : History) :
    Reads p true trail (hitsBelow p rest items 0) history items
      (scanAll descend trail [] [] items history) := by
  obtain ⟨h1, h2, h3, h4⟩ := scanAll_reads_from hd items [] [] history
  refine ⟨h1, fun hh => ⟨_, h2 rfl hh, rfl⟩, fun e es hh => ?_, h4, fun h => by cases h⟩
  obtain ⟨r, hr⟩ := h3 (Or.inr (by rw [List.length_nil, hh]; simp))
  exact ⟨r, hr, fun h => by cases h⟩

theorem scanAll_error {fault : Fault} :
    ∀ (ahead results behind : List Value) (history : History),
      (scanAll descend trail results behind ahead history).result = .error fault →
        fault.isStructural = true →
          fault = .notFound traversal ∧ ∃ older,
            (scanAll descend trail results behind ahead history).history =
              .missed (trail.path ++ [traversal]) :: older
  | [], results, behind, history, h, _ => by
    cases hc : collect results.reverse with
    | some r => simp [scanAll, hc] at h
    | none =>
      simp only [scanAll, hc, Outcome.miss, Outcome.fail, Except.error.injEq] at h ⊢
      exact ⟨h.symm, history, rfl⟩
  | x :: ahead, results, behind, history, h, hs => by
    generalize ho : descend (.element (indexSegment behind.length) behind ahead :: trail) x
      history = o
    cases hr : o.result with
    | ok r =>
      rw [scanAll_cons_of_ok ho hr] at h ⊢
      exact scanAll_error ahead _ _ _ h hs
    | error fault' =>
      cases hf : fault'.isStructural with
      | true =>
        rw [scanAll_cons_of_error ho hr hf] at h ⊢
        exact scanAll_error ahead _ _ _ h hs
      | false =>
        have hfault : fault' = fault := by
          simpa [scanAll, ho, hr, hf, Outcome.fail] using h
        rw [← hfault, hf] at hs
        cases hs

theorem traverse_error {last : Bool} {items : List Value} {history : History} {fault : Fault}
    (h : ((reader p every).traverse budget descend last trail items history).result = .error fault)
    (hs : fault.isStructural = true) :
    fault = .notFound traversal ∧ ∃ older,
      ((reader p every).traverse budget descend last trail items history).history =
        .missed (trail.path ++ [traversal]) :: older := by
  cases every with
  | true => exact scanAll_error items [] [] history h hs
  | false => exact scanFirst_error items [] history h hs

theorem traverse_reads (hd : DescentReads p every rest trail descend) (last : Bool)
    (items : List Value) (history : History) :
    Reads p every trail (hitsBelow p rest items 0) history items
      ((reader p every).traverse budget descend last trail items history) := by
  cases every with
  | true => exact scanAll_reads hd items history
  | false => exact scanFirst_reads hd items [] history

/-! ### The way down -/

/-- **What a visit that only looks comes to.** -/
theorem visit_reads (p : Value → Bool) (path : Path) (trail : Trail) (node : Value)
    (history : History) :
    Reads p every trail (hits p path node) history (some node)
      ((reader p every).visit budget path trail node history) := by
  induction path generalizing trail node history with
  | nil => exact target_reads p every trail node history
  | cons segment rest ih =>
    cases node.step trail.key segment with
    | misfit fault hm =>
      rw [visit_misfit _ _ _ _ _ hm, hits_of_obstacle p (obstacle_of_misfit hm rest)]
      refine ⟨rfl, fun _ => ⟨fault, rfl, (isStructural_of_misfit hm).1⟩,
        fun e es he => (by cases he), ?_, fun _ e es he => (by cases he)⟩
      cases every <;> simp [Outcome.fail]
    | child child hm hc =>
      obtain ⟨frame, hseg, hfill, -, hv⟩ :=
        visit_child (reader p every) budget trail history rest hc
      have hleft : some node = some (frame.fill (some child)) := by
        rw [hfill, putChild_of_child? hc]
      have h := (ih (frame :: trail) child history).enter fun left => some (frame.fill left)
      rw [hv, hits_of_child? p hc, hleft]
      rwa [hseg] at h
    | spread items hv hs =>
      subst hv hs
      have hd : DescentReads p every rest trail ((reader p every).visit budget rest) :=
        fun frame x h => ih (frame :: trail) x h
      have h := traverse_reads every budget hd rest.isEmpty items history
      rw [visit_any _ _ _ _ _ _ Role.ofSegment_traversal, hits_traversal]
      exact ⟨by rw [Outcome.left_map, h.left_eq], h.failed, h.found, h.accepted, h.last⟩
    | missing hm hs hc =>
      rw [visit_missing _ _ _ _ hm hs hc (Or.inr (Or.inl rfl)), hits_of_missing p hs hc]
      refine ⟨rfl, fun _ => ⟨_, rfl, rfl⟩, fun e es he => (by cases he), ?_,
        fun _ e es he => (by cases he)⟩
      simp only [Outcome.miss, Outcome.fail]
      rw [History.accepted_missed]
      cases every <;> simp

end Visitor

/-! ### Where a path stops -/

/-- The place reported when a path leads to nothing: the path up to the first segment under which
nothing is found; an empty segment is left out. -/
def Value.stop : Path → Value → Path
  | [], _ => []
  | segment :: rest, v =>
    match v.child? segment with
    | some child => segment :: stop rest child
    | none => if segment = "" then [] else [segment]

theorem Value.stop_of_child? {v child : Value} {segment : String}
    (h : v.child? segment = some child) (rest : Path) :
    stop (segment :: rest) v = segment :: stop rest child := by
  simp only [stop, h]

theorem Value.stop_of_child?_none {v : Value} {segment : String} (h : v.child? segment = none)
    (rest : Path) : stop (segment :: rest) v = if segment = "" then [] else [segment] := by
  simp only [stop, h]

/-- The first segment of a path under which nothing is found; the empty one if there is none. -/
def Value.gap : Path → Value → String
  | [], _ => ""
  | segment :: rest, v =>
    match v.child? segment with
    | some child => gap rest child
    | none => segment

theorem Value.gap_of_child? {v child : Value} {segment : String}
    (h : v.child? segment = some child) (rest : Path) :
    gap (segment :: rest) v = gap rest child := by
  simp only [gap, h]

theorem Value.gap_of_child?_none {v : Value} {segment : String} (h : v.child? segment = none)
    (rest : Path) : gap (segment :: rest) v = segment := by
  simp only [gap, h]

namespace Visitor

/-- **Without an obstacle and without a hit** a visit fails with the segment under which nothing is
found, and reports last the place where the path stops. -/
theorem visit_reader_missed {p : Value → Bool} (every : Bool) (budget : Nat) {path : Path}
    (trail : Trail) {node : Value} (history : History)
    (ho : obstacle trail.key path node = none) (hh : hits p path node = []) :
    ((reader p every).visit budget path trail node history).result =
        .error (.notFound (gap path node)) ∧
      ∃ older, ((reader p every).visit budget path trail node history).history =
        .missed (trail.path ++ stop path node) :: older := by
  induction path generalizing trail node history with
  | nil =>
    have hp : p node = false := by
      cases h : p node with
      | true => simp [hits, h] at hh
      | false => rfl
    simp [visit_nil, target, judge, reader, hp, Outcome.miss, Outcome.fail, stop, gap]
  | cons segment rest ih =>
    cases node.step trail.key segment with
    | misfit fault hm =>
      rw [obstacle_of_misfit hm] at ho
      cases ho
    | child child hm hc =>
      obtain ⟨frame, hseg, -, -, hv⟩ := visit_child (reader p every) budget trail history rest hc
      have hkey : Trail.key (frame :: trail) = segment := hseg
      rw [obstacle_of_child? hc] at ho
      rw [hits_of_child? p hc, List.map_eq_nil_iff] at hh
      obtain ⟨h1, older, h2⟩ := ih (frame :: trail) history (by rwa [hkey]) hh
      rw [hv, gap_of_child? hc]
      refine ⟨h1, older, ?_⟩
      rw [Outcome.history_map, h2, Trail.path_cons, hseg, stop_of_child? hc, List.append_assoc]
      rfl
    | spread items hv hs =>
      subst hv hs
      rw [hits_traversal] at hh
      have hd : DescentReads p every rest trail ((reader p every).visit budget rest) :=
        fun frame x h => visit_reads every budget p rest (frame :: trail) x h
      obtain ⟨fault, hr, hf⟩ :=
        (traverse_reads every budget hd rest.isEmpty items history).failed hh
      obtain ⟨rfl, older, hl⟩ := traverse_error every budget hr hf
      rw [visit_any _ _ _ _ _ _ Role.ofSegment_traversal, gap_of_child?_none (child?_traversal _),
        stop_of_child?_none (child?_traversal _), if_neg (show traversal ≠ "" by decide)]
      exact ⟨hr, older, hl⟩
    | missing hm hs hc =>
      rw [visit_missing _ _ _ _ hm hs hc (Or.inr (Or.inl rfl)), gap_of_child?_none hc,
        stop_of_child?_none hc]
      refine ⟨rfl, history, ?_⟩
      by_cases h : segment = "" <;> simp [Outcome.miss, Outcome.fail, h]

end Visitor

end Manifest
