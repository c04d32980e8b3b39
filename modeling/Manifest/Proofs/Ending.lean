import Manifest.Proofs.Rewriting
import Mathlib.Data.Finset.Lattice.Fold

/-!
# Visits that end

Only one kind of visit may go on for ever: one that wants a single target and appends what it writes
for a last `-`.  Each value that it appends and has turned down makes the array longer, so there is
always an element ahead.  `Visitor.Ends` says that some budget is enough for a visit.

`Budgeted` compares a visit under two budgets: the larger one changes nothing if the smaller was
enough, and a visit that has used up its budget has shown more values than the budget.
`visit_budgeted` proves this by induction on the path; the traversals are inductions on the elements
ahead, and `appendScan_budgeted` is one on the budget, in which the values shown make up for the
elements that were appended.

The main statement is `run_ends_iff`.  A visitor that turns down whatever it appends never ends, as
in `run_endless_of_refusing`.
-/

namespace Manifest

theorem Fault.ne_endless_of_isStructural (fault : Fault) (h : fault.isStructural = true) :
    fault ≠ .endless := by
  rintro rfl
  cases h

/-- How many values have been shown. -/
def History.shown (history : History) : Nat :=
  history.countP fun
    | .sighted .. => true
    | _ => false

namespace History

@[simp] theorem shown_sighted (value : Value) (trail : Trail) (left : Option Value)
    (history : History) : shown (.sighted value trail left :: history) = shown history + 1 :=
  List.countP_cons_of_pos rfl

@[simp] theorem shown_rewritten (value : Value) (history : History) :
    shown (.rewritten value :: history) = shown history :=
  List.countP_cons_of_neg (by simp)

@[simp] theorem shown_missed (path : Path) (history : History) :
    shown (.missed path :: history) = shown history :=
  List.countP_cons_of_neg (by simp)

end History

namespace Visitor

open Value

/-- The visitor answers whenever it is asked, if only with a fault: `endless` is no answer. -/
structure Answers (v : Visitor) : Prop where
  accept : ∀ history value path, v.accept history value path ≠ .error .endless
  rewrite : ∀ f, v.rewrite = some f → ∀ history value, f history value ≠ .error .endless

theorem Answers.rewrite_ne_endless {v : Visitor} (hv : v.Answers)
    {f : History → Value → Except Fault Value} (hf : v.rewrite = some f) {history : History}
    {value : Value} {fault : Fault} (h : f history value = .error fault) : fault ≠ .endless := by
  rintro rfl
  exact hv.rewrite f hf history value h

theorem answers_of_ok (accept : History → Value → Path → Bool) (f : History → Value → Value)
    (every : Bool) :
    Answers { every := every, accept := fun history value path => .ok (accept history value path)
              rewrite := some fun history value => .ok (f history value) } := by
  refine ⟨fun history value path h => ?_, fun g hg history value h => ?_⟩
  · cases h
  · cases hg
    cases h

/-- The visit of a document ends: some budget is enough for it. -/
def Ends (v : Visitor) (root : Value) (path : Path) : Prop :=
  ∃ budget, (v.run budget root path).result ≠ .error .endless

/-- The visitor appends what it writes at the end of the path. -/
def Appends (v : Visitor) (path : Path) : Prop :=
  v.every = false ∧ v.rewrite ≠ none ∧ path.getLast? = some traversal

/-- The visitor accepts everything once it has been shown so many values. -/
def AcceptsAfter (v : Visitor) (number : Nat) : Prop :=
  ∀ history value path, number ≤ history.shown → v.accept history value path = .ok true

theorem Appends.cons {v : Visitor} {path : Path} (h : v.Appends path) (segment : String) :
    v.Appends (segment :: path) := by
  obtain ⟨he, hr, hl⟩ := h
  refine ⟨he, hr, ?_⟩
  rw [List.getLast?_cons, hl]
  rfl

/-! ### Targets -/

/-- What comes to an end: no value is taken back from those shown, and a failure shows no more of
them than the visitor turns down. -/
structure Concludes {α : Type} (v : Visitor) (history : History) (o : Outcome α) : Prop where
  ended : o.result ≠ .error .endless
  shown : history.shown ≤ o.history.shown
  refused : ∀ fault number, o.result = .error fault → v.AcceptsAfter number →
    o.history.shown ≤ max number history.shown

theorem Concludes.map {α β : Type} {v : Visitor} {history : History} {o : Outcome α}
    (h : Concludes v history o) (f : α → β) : Concludes v history (o.map f) :=
  ⟨h.ended, h.shown, h.refused⟩

theorem Concludes.of_rewritten {α : Type} {v : Visitor} {history : History} {value : Value}
    {o : Outcome α} (h : Concludes v (.rewritten value :: history) o) : Concludes v history o :=
  ⟨h.ended, by simpa using h.shown, by simpa using h.refused⟩

section Targets
variable {α : Type} {v : Visitor} (hv : v.Answers) (trail : Trail) (history : History)

theorem concludes_fail {fault : Fault} (hf : fault ≠ .endless) (left : α) {after : History}
    (hs : after.shown = history.shown) : Concludes v history (.fail fault left after) := by
  refine ⟨by simpa [Outcome.fail] using hf, Nat.le_of_eq hs.symm, fun _ number _ _ => ?_⟩
  have hle : after.shown ≤ max number history.shown := hs ▸ Nat.le_max_right _ _
  exact hle

theorem concludes_miss (walked : Path) (segment : String) (left : α) :
    Concludes v history (.miss walked segment left history) :=
  concludes_fail history (by simp) left (History.shown_missed _ _)

include hv

theorem judge_concludes (walked : Path) (value : Value) (stands : Option Value) (left : α) :
    Concludes v history (v.judge walked trail value stands left history) ∧
      (v.judge walked trail value stands left history).history.shown = history.shown + 1 := by
  have hshown : (v.judge walked trail value stands left history).history.shown =
      history.shown + 1 := by
    unfold judge
    dsimp only
    split <;> simp [Outcome.miss, Outcome.fail]
  refine ⟨⟨fun he => ?_, by omega, fun fault number hr hn => ?_⟩, hshown⟩
  · unfold judge at he
    dsimp only at he
    split at he
    · next fault ha =>
      cases he
      exact hv.accept _ _ _ ha
    · cases he
    · cases he
  · -- what has been turned down was shown while the visitor still turned values down
    have hlt : history.shown < number := by
      by_contra hge
      have ha := hn history value trail.path (Nat.le_of_not_lt hge)
      simp only [judge, ha] at hr
      cases hr
    omega

theorem target_concludes (stands : Option Value) :
    Concludes v history (v.target trail stands history) := by
  unfold target
  dsimp only
  split
  · exact (judge_concludes hv trail history _ _ _ _).1
  · next f hf =>
    split
    · next fault hfault =>
      have hne : fault ≠ .endless := hv.rewrite_ne_endless hf hfault
      exact concludes_fail history hne _ (History.shown_rewritten _ _)
    · next new hnew =>
      exact (judge_concludes hv trail (.rewritten (stands.getD .absent) :: history)
        trail.path new new.present? new.present?).1.of_rewritten

theorem targetRoot_concludes (root : Value) : Concludes v [] (v.targetRoot root) := by
  unfold targetRoot
  split
  · exact (judge_concludes hv [] [] _ _ _ _).1
  · next f hf =>
    split
    · next fault hfault =>
      have hne : fault ≠ .endless := hv.rewrite_ne_endless hf hfault
      exact concludes_fail [] hne _ (History.shown_rewritten _ _)
    · next new hnew =>
      exact (judge_concludes hv [] [.rewritten root] [] new (some root) root).1.of_rewritten

/-- One look of an appending traversal ends, and every element by which the array is longer has been
shown. -/
theorem appendAt_concludes {f : History → Value → Except Fault Value} (hf : v.rewrite = some f)
    (items : List Value) (position : Nat) :
    Concludes v history (v.appendAt f trail items position history) ∧
      (v.appendAt f trail items position history).left.length + history.shown ≤
        items.length + (v.appendAt f trail items position history).history.shown := by
  have hleft {walked : Path} {inner : Trail} {value : Value} {stands : Option Value}
      (left : List Value) (hl : left.length ≤ items.length + 1) :
      let o := v.judge walked inner value stands left
        (.rewritten (items[position]?.getD .absent) :: history)
      Concludes v history o ∧ o.left.length + history.shown ≤ items.length + o.history.shown := by
    obtain ⟨hj, hs⟩ := judge_concludes hv inner
      (.rewritten (items[position]?.getD .absent) :: history) walked value stands left
    refine ⟨hj.of_rewritten, ?_⟩
    rw [judge_left, hs, History.shown_rewritten]
    omega
  unfold appendAt
  dsimp only
  split
  · next fault hfault =>
    have hne : fault ≠ .endless := hv.rewrite_ne_endless hf hfault
    refine ⟨concludes_fail history hne _ (History.shown_rewritten _ _), ?_⟩
    simp [Outcome.fail]
  · next new hnew =>
    split
    · exact hleft _ (by rw [List.length_eraseIdx]; split <;> omega)
    · exact hleft _ (by simp)

end Targets

/-! ### Two budgets -/

/-- A visit along a path under two budgets, of which `o` is what it comes to under the smaller one:
the larger budget changes nothing if the smaller one is enough, and otherwise more values than the
budget have been shown. -/
structure Budgeted {α : Type} (v : Visitor) (budget : Nat) (path : Path) (history : History)
    (o o' : Outcome α) : Prop where
  settled : o.result ≠ .error .endless → o' = o
  shown : history.shown ≤ o.history.shown
  refused : v.every = false → ∀ fault number, o.result = .error fault → v.AcceptsAfter number →
    o.history.shown ≤ max number history.shown
  spent : o.result = .error .endless → v.Appends path ∧ budget + history.shown < o.history.shown

namespace Budgeted

variable {α β : Type} {v : Visitor} {budget : Nat} {path : Path} {history middle : History}
  {o o' : Outcome α}

/-- What comes to an end needs no budget. -/
theorem of_concludes (h : Concludes v history o) : Budgeted v budget path history o o :=
  ⟨fun _ => rfl, h.shown, fun _ => h.refused, fun he => absurd he h.ended⟩

theorem enter (h : Budgeted v budget path history o o') (segment : String) :
    Budgeted v budget (segment :: path) history o o' := by
  refine ⟨h.settled, h.shown, h.refused, fun he => ?_⟩
  obtain ⟨ha, hlt⟩ := h.spent he
  exact ⟨ha.cons segment, hlt⟩

theorem map (h : Budgeted v budget path history o o') (f : α → β) :
    Budgeted v budget path history (o.map f) (o'.map f) :=
  ⟨fun hne => by rw [h.settled hne], h.shown, h.refused, h.spent⟩

theorem after (h : Budgeted v budget path middle o o') (hs : history.shown ≤ middle.shown)
    (hr : v.every = false → ∀ number, v.AcceptsAfter number →
      middle.shown ≤ max number history.shown) : Budgeted v budget path history o o' := by
  refine ⟨h.settled, Nat.le_trans hs h.shown, fun he fault number hf hn => ?_, fun he => ?_⟩
  · have h1 := hr he number hn
    have h2 := h.refused he fault number hf hn
    omega
  · obtain ⟨ha, hlt⟩ := h.spent he
    exact ⟨ha, by omega⟩

theorem stop {o o' : Outcome α} (h : Budgeted v budget path history o o') {fault : Fault}
    (hr : o.result = .error fault) (left : β) {p' : Outcome β}
    (hp : o' = o → p' = .fail fault left o.history) :
    Budgeted v budget path history (.fail fault left o.history) p' := by
  refine ⟨fun hne => hp (h.settled ?_), h.shown, fun he fault' number _ hn => ?_, fun he => ?_⟩
  · rw [hr]
    exact hne
  · exact h.refused he fault number hr hn
  · exact h.spent (hr.trans he)

end Budgeted

section Budgets
variable {v : Visitor} (hv : v.Answers) {budget more : Nat}

/-! ### Traversals -/

section Traversals
variable {rest : Path} {trail : Trail} {d d' : Descent}

/-- Two descents below every element, under two budgets. -/
def DescentBudgeted (v : Visitor) (budget : Nat) (rest : Path) (trail : Trail) (d d' : Descent) :
    Prop :=
  ∀ frame x history, Budgeted v budget rest history (d (frame :: trail) x history)
    (d' (frame :: trail) x history)

theorem scanFirst_budgeted (hd : DescentBudgeted v budget rest trail d d') :
    ∀ (ahead behind : List Value) (history : History),
      Budgeted v budget rest history (scanFirst d trail behind ahead history)
        (scanFirst d' trail behind ahead history)
  | [], behind, history => .of_concludes (concludes_miss history trail.path traversal _)
  | x :: ahead, behind, history => by
    have hx := hd (.element (indexSegment behind.length) behind ahead) x history
    generalize ho : d (.element (indexSegment behind.length) behind ahead :: trail) x history = o
      at hx
    generalize ho' : d' (.element (indexSegment behind.length) behind ahead :: trail) x history = o'
      at hx
    cases hr : o.result with
    | ok r =>
      obtain rfl : o' = o := hx.settled (by simp [hr])
      rw [scanFirst_cons_of_ok ho hr, scanFirst_cons_of_ok ho' hr]
      exact ⟨fun _ => rfl, hx.shown, fun _ _ _ h => (by cases h), fun h => (by cases h)⟩
    | error fault =>
      cases hf : fault.isStructural with
      | true =>
        -- the element is passed over under both budgets
        have hne : fault ≠ .endless := fault.ne_endless_of_isStructural hf
        obtain rfl : o' = o := hx.settled (by simp [hr, hne])
        rw [scanFirst_cons_of_error ho hr hf, scanFirst_cons_of_error ho' hr hf]
        exact (scanFirst_budgeted hd ahead _ _).after hx.shown fun he number hn =>
          hx.refused he fault number hr hn
      | false =>
        rw [scanFirst_cons_of_stop ho hr hf]
        refine hx.stop hr _ fun he => ?_
        subst he
        exact scanFirst_cons_of_stop ho' hr hf

theorem scanAll_budgeted (he : v.every = true) (hd : DescentBudgeted v budget rest trail d d') :
    ∀ (ahead results behind : List Value) (history : History),
      Budgeted v budget rest history (scanAll d trail results behind ahead history)
        (scanAll d' trail results behind ahead history)
  | [], results, behind, history => by
    unfold scanAll
    split
    · exact .of_concludes (concludes_miss history trail.path traversal _)
    · refine ⟨fun _ => rfl, Nat.le_refl _, fun _ _ _ h => ?_, fun h => ?_⟩ <;> cases h
  | x :: ahead, results, behind, history => by
    have hx := hd (.element (indexSegment behind.length) behind ahead) x history
    generalize ho : d (.element (indexSegment behind.length) behind ahead :: trail) x history = o
      at hx
    generalize ho' : d' (.element (indexSegment behind.length) behind ahead :: trail) x history = o'
      at hx
    have hfirst : v.every = false → ∀ number, v.AcceptsAfter number →
        o.history.shown ≤ max number history.shown := by
      intro hn
      rw [he] at hn
      cases hn
    cases hr : o.result with
    | ok r =>
      obtain rfl : o' = o := hx.settled (by simp [hr])
      rw [scanAll_cons_of_ok ho hr, scanAll_cons_of_ok ho' hr]
      exact (scanAll_budgeted he hd ahead _ _ _).after hx.shown hfirst
    | error fault =>
      cases hf : fault.isStructural with
      | true =>
        have hne : fault ≠ .endless := fault.ne_endless_of_isStructural hf
        obtain rfl : o' = o := hx.settled (by simp [hr, hne])
        rw [scanAll_cons_of_error ho hr hf, scanAll_cons_of_error ho' hr hf]
        exact (scanAll_budgeted he hd ahead _ _ _).after hx.shown hfirst
      | false =>
        rw [scanAll_cons_of_stop ho hr hf]
        refine hx.stop hr _ fun he => ?_
        subst he
        exact scanAll_cons_of_stop ho' hr hf

end Traversals

/-! ### Appending -/

section Appending
variable (v) (f : History → Value → Except Fault Value) (trail : Trail) {items : List Value}
  {position : Nat} (history : History)

theorem appendScan_at_end (h : items.length ≤ position) (fuel : Nat) :
    v.appendScan f trail fuel items position history =
      .miss trail.path traversal items history := by
  unfold appendScan
  rw [if_pos h]

theorem appendScan_zero (h : position < items.length) :
    v.appendScan f trail 0 items position history = .fail .endless items history := by
  unfold appendScan
  rw [if_neg (Nat.not_le.mpr h)]

section Looks
variable {v f trail history} {o : Outcome (List Value)} {fault : Fault}
  (ho : v.appendAt f trail items position history = o) (h : position < items.length) (fuel : Nat)
include ho h

theorem appendScan_succ_of_ok {r : Value} (hr : o.result = .ok r) :
    v.appendScan f trail (fuel + 1) items position history = o := by
  subst ho
  unfold appendScan
  simp only [if_neg (Nat.not_le.mpr h), hr]

theorem appendScan_succ_of_error (hr : o.result = .error fault) (hf : fault.isStructural = true) :
    v.appendScan f trail (fuel + 1) items position history =
      v.appendScan f trail fuel o.left (position + 1) o.history := by
  subst ho
  conv => lhs; unfold appendScan
  simp only [if_neg (Nat.not_le.mpr h), hr, hf, if_true]

theorem appendScan_succ_of_stop (hr : o.result = .error fault) (hf : fault.isStructural = false) :
    v.appendScan f trail (fuel + 1) items position history = o := by
  subst ho
  unfold appendScan
  simp only [if_neg (Nat.not_le.mpr h), hr, hf, Bool.false_eq_true, if_false]

end Looks

end Appending

include hv

/-- The traversal that appends, since the values of `first` were shown.  A look takes one from the
fuel, and every element by which it makes the array longer has been shown. -/
theorem appendScan_budgeted {f : History → Value → Except Fault Value} (hf : v.rewrite = some f)
    (he : v.every = false) (trail : Trail) (first : History) :
    ∀ (fuel fuel' : Nat) (items : List Value) (position : Nat) (history : History),
      fuel ≤ fuel' → first.shown ≤ history.shown →
      (∀ number, v.AcceptsAfter number → history.shown ≤ max number first.shown) →
      budget + first.shown + items.length ≤ position + fuel + history.shown →
      Budgeted v budget [traversal] first (v.appendScan f trail fuel items position history)
        (v.appendScan f trail fuel' items position history) := by
  intro fuel
  induction fuel with
  | zero =>
    intro fuel' items position history _ hs hr hpot
    rcases Nat.lt_or_ge position items.length with hlt | hge
    · rw [appendScan_zero v f trail history hlt]
      refine ⟨fun hne => absurd rfl hne, hs, fun _ _ number _ hn => hr number hn, fun _ => ?_⟩
      refine ⟨⟨he, by simp [hf], rfl⟩, ?_⟩
      show budget + first.shown < history.shown
      omega
    · rw [appendScan_at_end v f trail history hge, appendScan_at_end v f trail history hge]
      exact (Budgeted.of_concludes (concludes_miss history _ _ _)).after hs fun _ => hr
  | succ fuel ih =>
    intro fuel' items position history hle hs hr hpot
    rcases Nat.lt_or_ge position items.length with hlt | hge
    · obtain ⟨more, rfl⟩ : ∃ more, fuel' = more + 1 := ⟨fuel' - 1, by omega⟩
      obtain ⟨hc, hlen⟩ := appendAt_concludes hv trail history hf items position
      generalize ho : v.appendAt f trail items position history = o at hc hlen
      cases hres : o.result with
      | ok r =>
        rw [appendScan_succ_of_ok ho hlt fuel hres, appendScan_succ_of_ok ho hlt more hres]
        exact (Budgeted.of_concludes hc).after hs fun _ => hr
      | error fault =>
        cases hstr : fault.isStructural with
        | true =>
          have hshown := hc.shown
          rw [appendScan_succ_of_error ho hlt fuel hres hstr,
            appendScan_succ_of_error ho hlt more hres hstr]
          refine ih more _ _ _ (by omega) (by omega) (fun number hn => ?_) (by omega)
          have h1 := hc.refused fault number hres hn
          have h2 := hr number hn
          omega
        | false =>
          rw [appendScan_succ_of_stop ho hlt fuel hres hstr,
            appendScan_succ_of_stop ho hlt more hres hstr]
          exact (Budgeted.of_concludes hc).after hs fun _ => hr
    · rw [appendScan_at_end v f trail history hge, appendScan_at_end v f trail history hge]
      exact (Budgeted.of_concludes (concludes_miss history _ _ _)).after hs fun _ => hr

/-! ### The way down -/

theorem traverse_budgeted (hle : budget ≤ more) {rest : Path} {trail : Trail}
    (hd : DescentBudgeted v budget rest trail (v.visit budget rest) (v.visit more rest))
    (items : List Value) (history : History) :
    Budgeted v budget (traversal :: rest) history
      (v.traverse budget (v.visit budget rest) rest.isEmpty trail items history)
      (v.traverse more (v.visit more rest) rest.isEmpty trail items history) := by
  cases he : v.every with
  | true =>
    have h := (scanAll_budgeted he hd items [] [] history).enter traversal
    unfold traverse
    rw [he]
    exact h
  | false =>
    have hfirst := (scanFirst_budgeted hd items [] history).enter traversal
    cases hr : v.rewrite with
    | none =>
      unfold traverse
      rw [he, hr]
      exact hfirst
    | some f =>
      cases rest with
      | cons segment rest =>
        unfold traverse
        rw [he, hr]
        exact hfirst
      | nil =>
        have hscan : ∀ b, v.traverse b (v.visit b []) (List.isEmpty ([] : Path)) trail items
            history = if items.isEmpty then v.appendAt f trail items 0 history
              else v.appendScan f trail (items.length + b) items 0 history := by
          intro b
          unfold traverse
          rw [he, hr]
          rfl
        rw [hscan, hscan]
        split
        · exact .of_concludes (appendAt_concludes hv trail history hr items 0).1
        · exact appendScan_budgeted hv hr he trail history _ _ items 0 history (by omega)
            (Nat.le_refl _) (fun _ _ => Nat.le_max_right _ _) (by omega)

/-- **A visit under two budgets.** -/
theorem visit_budgeted (hle : budget ≤ more) (path : Path) (trail : Trail) (node : Value)
    (history : History) :
    Budgeted v budget path history (v.visit budget path trail node history)
      (v.visit more path trail node history) := by
  induction path generalizing trail node history with
  | nil => exact .of_concludes (target_concludes hv trail history (some node))
  | cons segment rest ih =>
    cases node.step trail.key segment with
    | misfit fault hm =>
      have hne : fault ≠ .endless := fault.ne_endless_of_isStructural (isStructural_of_misfit hm).1
      rw [visit_misfit _ _ _ _ _ hm, visit_misfit _ _ _ _ _ hm]
      exact .of_concludes (concludes_fail history hne _ rfl)
    | child child hm hc =>
      rcases container_of_child? hc with ⟨items, n, rfl, hs, hn⟩ | ⟨kind, members, rfl, hs, hg⟩
      · rw [visit_index v budget trail history rest hs hn,
          visit_index v more trail history rest hs hn]
        exact ((ih _ child history).enter segment).map _
      · rw [visit_member v budget trail history rest hs hg,
          visit_member v more trail history rest hs hg]
        exact ((ih _ child history).enter segment).map _
    | spread items hi hs =>
      subst hi hs
      have hd : DescentBudgeted v budget rest trail (v.visit budget rest) (v.visit more rest) :=
        fun frame x h => ih (frame :: trail) x h
      rw [visit_any _ _ _ _ _ _ Role.ofSegment_traversal,
        visit_any _ _ _ _ _ _ Role.ofSegment_traversal]
      exact (traverse_budgeted hv hle hd items history).map _
    | missing hm hs hc =>
      rcases v.missing_cases hm hc rest with hmiss | ⟨kind, members, rfl, hr, rfl, hk, hg⟩
      · rw [visit_missing _ _ _ _ hm hs hc hmiss, visit_missing _ _ _ _ hm hs hc hmiss]
        exact .of_concludes (concludes_miss history _ _ _)
      · -- a last key that is created
        rw [visit_new_member v budget trail history hk hg hr,
          visit_new_member v more trail history hk hg hr]
        exact .of_concludes ((target_concludes hv _ history none).map _)

/-- **A document visited under two budgets.** -/
theorem run_budgeted (hle : budget ≤ more) (root : Value) (path : Path) :
    Budgeted v budget path [] (v.run budget root path) (v.run more root path) := by
  cases path with
  | nil => exact .of_concludes (targetRoot_concludes hv root)
  | cons segment rest =>
    exact (visit_budgeted hv hle (segment :: rest) [] root []).map fun left => left.getD root

end Budgets

/-- **Which visits end.**  Only a visitor that appends what it writes at the end of the path needs a
budget, and one that is enough stays enough and gives the same.  A visit ends exactly if it does not
show more and more values; so it ends if the visitor turns down no more than some number of them. -/
theorem run_ends_iff {v : Visitor} (hv : v.Answers) (root : Value) (path : Path) :
    (¬ v.Appends path → ∀ budget, (v.run budget root path).result ≠ .error .endless ∧
        v.run budget root path = v.run 0 root path) ∧
      (∀ budget more, (v.run budget root path).result ≠ .error .endless → budget ≤ more →
        v.run more root path = v.run budget root path) ∧
      (v.Ends root path ↔ ∃ bound, ∀ budget, (v.run budget root path).history.shown ≤ bound) ∧
      ∀ number, v.AcceptsAfter number → v.Ends root path := by
  have hb : ∀ {budget more : Nat}, budget ≤ more →
      Budgeted v budget path [] (v.run budget root path) (v.run more root path) :=
    fun hle => run_budgeted hv hle root path
  refine ⟨fun hn budget => ?_, fun budget more hne hle => (hb hle).settled hne, ⟨?_, ?_⟩, ?_⟩
  · have hne : ∀ b, (v.run b root path).result ≠ .error .endless :=
      fun b he => hn ((hb (Nat.le_refl b)).spent he).1
    exact ⟨hne budget, (hb (Nat.zero_le budget)).settled (hne 0)⟩
  · rintro ⟨enough, hne⟩
    -- below the budget that is enough there are finitely many others
    refine ⟨(Finset.range (enough + 1)).sup fun b => (v.run b root path).history.shown,
      fun budget => ?_⟩
    rcases Nat.le_total budget enough with hle | hle
    · exact Finset.le_sup (f := fun b => (v.run b root path).history.shown)
        (Finset.mem_range.mpr (Nat.lt_succ_of_le hle))
    · rw [(hb hle).settled hne]
      exact Finset.le_sup (f := fun b => (v.run b root path).history.shown)
        (Finset.mem_range.mpr (Nat.lt_succ_self enough))
  · rintro ⟨bound, hbound⟩
    refine ⟨bound, fun he => ?_⟩
    have hlt := ((hb (Nat.le_refl bound)).spent he).2
    have hle := hbound bound
    omega
  · intro number hn
    refine ⟨number, fun he => ?_⟩
    obtain ⟨ha, hlt⟩ := (hb (Nat.le_refl number)).spent he
    have hle := (hb (Nat.le_refl number)).refused ha.1 _ number he hn
    have hzero : History.shown [] = 0 := rfl
    omega

/-- The third value that is appended is accepted. -/
theorem run_ends_of_patient :
    let v : Visitor :=
      { accept := fun history _ _ => .ok (2 ≤ history.shown)
        rewrite := some fun _ _ => .ok (string "y") }
    let root := array [string "x"]
    v.Answers ∧ v.AcceptsAfter 2 ∧ v.Ends root ["-"] ∧ (v.run 2 root ["-"]).history.shown = 3 ∧
      ∀ more, 2 ≤ more → v.run more root ["-"] = v.run 2 root ["-"] := by
  intro v root
  have hv : v.Answers := answers_of_ok _ _ false
  have hn : v.AcceptsAfter 2 := fun history _ _ h => congrArg Except.ok (decide_eq_true h)
  have hres : (v.run 2 root ["-"]).result = .ok (string "y") := by rfl
  have hne : (v.run 2 root ["-"]).result ≠ .error .endless := by simp [hres]
  have hall := run_ends_iff hv root ["-"]
  exact ⟨hv, hn, hall.2.2.2 2 hn, by rfl, fun more hle => hall.2.1 2 more hne hle⟩

/-! ### Visits that do not end -/

/-- A visitor that appends a value and turns it down finds an element ahead every time. -/
theorem appendScan_of_refusing {v : Visitor} {new : Value} (hn : new.present? = some new)
    (hv : ∀ history value path, v.accept history value path = .ok false) (trail : Trail)
    (fuel : Nat) (items : List Value) (position : Nat) (history : History)
    (hp : position < items.length) :
    (v.appendScan (fun _ _ => .ok new) trail fuel items position history).result =
      .error .endless := by
  induction fuel generalizing items position history with
  | zero => rw [appendScan_zero v _ trail history hp]; rfl
  | succ fuel ih =>
    have happend : (v.appendAt (fun _ _ => .ok new) trail items position history).result =
          .error (.notFound "") ∧
        (v.appendAt (fun _ _ => .ok new) trail items position history).left = items ++ [new] := by
      simp only [appendAt, hn, judge, hv]
      exact ⟨rfl, rfl⟩
    rw [appendScan_succ_of_error rfl hp fuel happend.1 rfl, happend.2]
    exact ih _ _ _ (by rw [List.length_append, List.length_singleton]; omega)

/-- **A visit that does not end**, although each of the answers is there at once: whatever the
budget, it is used up. -/
theorem run_endless_of_refusing :
    let v : Visitor :=
      { accept := fun _ _ _ => .ok false
        rewrite := some fun _ _ => .ok (string "y") }
    let root := array [string "x"]
    v.Answers ∧ ¬ v.Ends root ["-"] ∧
      ∀ budget, (v.run budget root ["-"]).result = .error .endless := by
  intro v root
  have hv : v.Answers := answers_of_ok _ _ false
  have hnew : (string "y").present? = some (string "y") := rfl
  have hrun : ∀ budget, (v.run budget root ["-"]).result = .error .endless := fun budget =>
    appendScan_of_refusing (v := v) hnew (fun _ _ _ => rfl) [] (1 + budget) [string "x"] 0 []
      (by decide)
  refine ⟨hv, ?_, hrun⟩
  rintro ⟨budget, hne⟩
  exact hne (hrun budget)

end Visitor

end Manifest
