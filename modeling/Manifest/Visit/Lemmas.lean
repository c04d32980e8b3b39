import Manifest.Location
import Manifest.Visit

/-!
# Visits, step by step

One equation for each way in which a visit goes on at a node (`visit_member`, `visit_index`,
`visit_any` and those for the nodes where it ends), so that nobody has to unfold `Visitor.visit`,
and for each way in which a traversal goes on behind an element (`scanFirst_cons_of_ok` and the
three after it).  A property that the descent into every element keeps is kept by the traversal
(`scanFirst_keeps`, `scanAll_keeps`).

Along a path without `-` a visit meets exactly the values that `Value.at?` looks up
(`visit_append`): at a place that exists it goes on with the value there, and what it leaves there
is put back into the containers on the way.
-/

namespace Manifest

namespace Outcome

variable {α β : Type}

@[simp] theorem result_map (f : α → β) (o : Outcome α) : (o.map f).result = o.result := rfl

@[simp] theorem left_map (f : α → β) (o : Outcome α) : (o.map f).left = f o.left := rfl

@[simp] theorem history_map (f : α → β) (o : Outcome α) : (o.map f).history = o.history := rfl

end Outcome

namespace Visitor

variable (v : Visitor) (budget : Nat) (trail : Trail) (history : History)

/-! ## One equation for each kind of node -/

section Nodes

attribute [local simp] visit

theorem visit_nil (node : Value) :
    v.visit budget [] trail node history = v.target trail (some node) history := rfl

theorem visit_member {segment : String} (rest : Path) {kind : RecordKind} {members : Fields Value}
    {child : Value} (hs : Role.ofSegment segment = .key)
    (hc : Fields.get? members segment = some child) :
    v.visit budget (segment :: rest) trail (.record kind members) history =
      (v.visit budget rest (.member kind segment members :: trail) child history).map fun left =>
        some ((Frame.member kind segment members).fill left) := by
  simp [hs, hc, Role.ofArray]

theorem visit_new_member {segment : String} {kind : RecordKind} {members : Fields Value}
    (hs : Role.ofSegment segment = .key) (hc : Fields.get? members segment = none)
    (hv : v.rewrite.isSome = true) :
    v.visit budget [segment] trail (.record kind members) history =
      (v.target (.member kind segment members :: trail) none history).map fun left =>
        some ((Frame.member kind segment members).fill left) := by
  simp [hs, hc, hv, Role.ofArray]

theorem visit_missing_member {segment : String} {rest : Path} {kind : RecordKind}
    {members : Fields Value} (hs : Role.ofSegment segment = .key)
    (hc : Fields.get? members segment = none) (hv : rest ≠ [] ∨ v.rewrite = none) :
    v.visit budget (segment :: rest) trail (.record kind members) history =
      .miss trail.path segment (some (.record kind members)) history := by
  rcases hv with hv | hv <;> simp [hs, hc, hv, Role.ofArray]

theorem visit_record_array {segment : String} (rest : Path) (kind : RecordKind)
    (members : Fields Value) (hs : Role.ofSegment segment ≠ .key) :
    v.visit budget (segment :: rest) trail (.record kind members) history =
      .fail (.notAnArray trail.key) (some (.record kind members)) history := by
  simp [hs, Role.ofArray]

theorem visit_index {segment : String} (rest : Path) {items : List Value} {n : Nat} {child : Value}
    (hs : Role.ofSegment segment = .index n) (hc : items[n]? = some child) :
    v.visit budget (segment :: rest) trail (.array items) history =
      (v.visit budget rest (.element segment (items.take n).reverse (items.drop (n + 1)) :: trail)
        child history).map fun left =>
          some ((Frame.element segment (items.take n).reverse (items.drop (n + 1))).fill left) := by
  simp only [visit, hs, hc]

theorem visit_missing_index {segment : String} (rest : Path) {items : List Value} {n : Nat}
    (hs : Role.ofSegment segment = .index n) (hc : items[n]? = none) :
    v.visit budget (segment :: rest) trail (.array items) history =
      .miss trail.path segment (some (.array items)) history := by
  simp only [visit, hs, hc]

theorem visit_any {segment : String} (rest : Path) (items : List Value)
    (hs : Role.ofSegment segment = .any) :
    v.visit budget (segment :: rest) trail (.array items) history =
      (v.traverse budget (v.visit budget rest) rest.isEmpty trail items history).map fun items =>
        some (.array items) := by
  simp only [visit, hs]

theorem visit_array_key {segment : String} (rest : Path) (items : List Value)
    (hs : Role.ofSegment segment = .key) :
    v.visit budget (segment :: rest) trail (.array items) history =
      .fail (.missingArrayTraversal trail.key) (some (.array items)) history := by
  simp only [visit, hs]

end Nodes

/-! ## One equation for each way on in a traversal -/

section Scans
variable {descend : Descent} {trail : Trail} {behind ahead results : List Value} {x : Value}
  {history : History} {o : Outcome (Option Value)}
  (ho : descend (.element (indexSegment behind.length) behind ahead :: trail) x history = o)
include ho

theorem scanFirst_cons_of_ok {r : Value} (hr : o.result = .ok r) :
    scanFirst descend trail behind (x :: ahead) history =
      ⟨.ok r, rejoin behind o.left ahead, o.history⟩ := by
  subst ho
  simp only [scanFirst, hr]

theorem scanFirst_cons_of_error {fault : Fault} (hr : o.result = .error fault)
    (hf : fault.isStructural = true) :
    scanFirst descend trail behind (x :: ahead) history =
      scanFirst descend trail (o.left.toList ++ behind) ahead o.history := by
  subst ho
  simp only [scanFirst, hr, hf, if_true]

theorem scanFirst_cons_of_stop {fault : Fault} (hr : o.result = .error fault)
    (hf : fault.isStructural = false) :
    scanFirst descend trail behind (x :: ahead) history =
      .fail fault (rejoin behind o.left ahead) o.history := by
  subst ho
  simp only [scanFirst, hr, hf, Bool.false_eq_true, if_false]

theorem scanAll_cons_of_ok {r : Value} (hr : o.result = .ok r) :
    scanAll descend trail results behind (x :: ahead) history =
      scanAll descend trail (r :: results) (o.left.toList ++ behind) ahead o.history := by
  subst ho
  simp only [scanAll, hr]

theorem scanAll_cons_of_error {fault : Fault} (hr : o.result = .error fault)
    (hf : fault.isStructural = true) :
    scanAll descend trail results behind (x :: ahead) history =
      scanAll descend trail results (o.left.toList ++ behind) ahead o.history := by
  subst ho
  simp only [scanAll, hr, hf, if_true]

theorem scanAll_cons_of_stop {fault : Fault} (hr : o.result = .error fault)
    (hf : fault.isStructural = false) :
    scanAll descend trail results behind (x :: ahead) history =
      .fail fault (rejoin behind o.left ahead) o.history := by
  subst ho
  simp only [scanAll, hr, hf, Bool.false_eq_true, if_false]

end Scans

/-! ## What a traversal keeps -/

/-- A property of the elements and the history that is kept by the descent into every element. -/
def DescentKeeps (P : List Value → History → Prop) (trail : Trail) (descend : Descent) : Prop :=
  ∀ behind ahead x history, P (behind.reverse ++ x :: ahead) history →
    let o := descend (.element (indexSegment behind.length) behind ahead :: trail) x history
    P (rejoin behind o.left ahead) o.history

section Keeping
variable {P : List Value → History → Prop} {trail : Trail} {descend : Descent}
  (hd : DescentKeeps P trail descend)
  (hm : ∀ items history report, P items history → P items (.missed report :: history))
include hd hm

theorem scanFirst_keeps : ∀ (ahead behind : List Value) (history : History),
    P (behind.reverse ++ ahead) history →
      P (scanFirst descend trail behind ahead history).left
        (scanFirst descend trail behind ahead history).history
  | [], behind, history, h => by
    rw [List.append_nil] at h
    exact hm _ _ _ h
  | x :: ahead, behind, history, h => by
    have hx := hd behind ahead x history h
    generalize ho : descend (.element (indexSegment behind.length) behind ahead :: trail) x history
      = o at hx
    cases hr : o.result with
    | ok r =>
      rw [scanFirst_cons_of_ok ho hr]
      exact hx
    | error fault =>
      cases hf : fault.isStructural with
      | true =>
        rw [scanFirst_cons_of_error ho hr hf]
        exact scanFirst_keeps ahead _ _ hx
      | false =>
        rw [scanFirst_cons_of_stop ho hr hf]
        exact hx

theorem scanAll_keeps : ∀ (ahead results behind : List Value) (history : History),
    P (behind.reverse ++ ahead) history →
      P (scanAll descend trail results behind ahead history).left
        (scanAll descend trail results behind ahead history).history
  | [], results, behind, history, h => by
    rw [List.append_nil] at h
    unfold scanAll
    split
    · exact hm _ _ _ h
    · exact h
  | x :: ahead, results, behind, history, h => by
    have hx := hd behind ahead x history h
    generalize ho : descend (.element (indexSegment behind.length) behind ahead :: trail) x history
      = o at hx
    cases hr : o.result with
    | ok r =>
      rw [scanAll_cons_of_ok ho hr]
      exact scanAll_keeps ahead _ _ _ hx
    | error fault =>
      cases hf : fault.isStructural with
      | true =>
        rw [scanAll_cons_of_error ho hr hf]
        exact scanAll_keeps ahead _ _ _ hx
      | false =>
        rw [scanAll_cons_of_stop ho hr hf]
        exact hx

end Keeping

/-! ## Paths without a traversal -/

/-- Entering a child and leaving something in its place is `Value.putChild`, or `Value.dropChild` if
nothing is left. -/
theorem visit_child {segment : String} (rest : Path) {node child : Value}
    (hc : node.child? segment = some child) :
    ∃ frame : Frame, frame.segment = segment ∧ (∀ new, frame.fill (some new) =
        node.putChild segment new) ∧ frame.fill none = node.dropChild segment ∧
      v.visit budget (segment :: rest) trail node history =
        (v.visit budget rest (frame :: trail) child history).map fun left =>
          some (frame.fill left) := by
  cases node with
  | array items =>
    cases hs : Role.ofSegment segment with
    | index n =>
      have hn : items[n]? = some child := by simpa [Value.child?, hs] using hc
      refine ⟨_, rfl, fun new => ?_, ?_, visit_index v budget trail history rest hs hn⟩
      · have hl : n < items.length := (List.getElem?_eq_some_iff.mp hn).1
        simp [Frame.fill, Value.putChild, hs, List.set_eq_take_append_cons_drop, hl]
      · simp [Frame.fill, Value.dropChild, hs, List.eraseIdx_eq_take_drop_succ]
    | _ => simp [Value.child?, hs] at hc
  | record kind members =>
    cases hs : Role.ofSegment segment with
    | key =>
      have hm : Fields.get? members segment = some child := by
        simpa [Value.child?, hs, Role.ofArray] using hc
      exact ⟨.member kind segment members, rfl, Value.assign_of_get? hm, rfl,
        visit_member v budget trail history rest hs hm⟩
    | _ => simp [Value.child?, hs, Role.ofArray] at hc
  | _ => simp [Value.child?] at hc

/-- **A visit goes on from the value at a place that exists** as if that value were the document;
what it leaves there is put back. -/
theorem visit_append {path : Path} {node value : Value} (h : node.at? path = some value)
    (rest : Path) :
    ∃ inner : Trail, inner.path = path ∧
      (v.visit budget (path ++ rest) trail node history).result =
        (v.visit budget rest (inner ++ trail) value history).result ∧
      (v.visit budget (path ++ rest) trail node history).history =
        (v.visit budget rest (inner ++ trail) value history).history ∧
      ∀ new, (v.visit budget rest (inner ++ trail) value history).left = some new →
        (v.visit budget (path ++ rest) trail node history).left = some (node.putAt path new) := by
  induction path generalizing node trail with
  | nil =>
    obtain rfl : node = value := by simpa using h
    exact ⟨[], rfl, rfl, rfl, fun new hn => by simpa using hn⟩
  | cons segment inside ih =>
    rw [Value.at?_cons] at h
    obtain ⟨child, hc, hr⟩ := Option.bind_eq_some_iff.mp h
    obtain ⟨frame, hseg, hfill, -, hv⟩ := visit_child v budget trail history (inside ++ rest) hc
    obtain ⟨inner, hp, hres, hhist, hleft⟩ := ih (frame :: trail) hr
    have happ : inner ++ [frame] ++ trail = inner ++ frame :: trail := by simp
    refine ⟨inner ++ [frame], ?_, ?_⟩
    · simp_all [Trail.path]
    · rw [List.cons_append, hv, happ]
      refine ⟨hres, hhist, fun new hn => ?_⟩
      rw [Outcome.left_map, hleft new hn, hfill, Value.putAt_cons hc]

end Visitor

end Manifest
