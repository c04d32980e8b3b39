import Manifest.Proofs.Rewriting

/-!
# What a visit that rewrites leaves behind

A target is rewritten where it stands: another value is written there, or nothing stands there any
more (`Value.editAt`).  Of several targets the last is written first, so that an element that is
removed does not move the targets still to be written (`Value.rewriteTargets`).  Unless it appends
to an array, a visit that rewrites by the values alone leaves the document with the targets it takes
assigned (`run_rewriter_left`): what an array has then is what is left of its elements, in their
order (`rewriteTargets_targetsBelow`).

An assignment puts the value at its place, unless it gives a record another prototype.  So the
targets are replaced by what they are assigned exactly if no record adopts one of them
(`leftBy_assignChild_eq_iff`).

The main statement is `run_mapper_rewrites_targets`: a visitor that wants every target is a map over
the targets of its path.
-/

namespace Manifest

namespace Value

/-! ### Writing at a place -/

/-- A node after an assignment under a segment, if there can be one. -/
def assignChild (v : Value) (segment : String) (new : Value) : Value := (v.put segment new).getD v

theorem assignChild_of_child? {v child : Value} {segment : String}
    (h : v.child? segment = some child) (new : Value) :
    v.assignChild segment new = v.putChild segment new := by
  rw [assignChild, put_of_child? h, Option.getD_some]

theorem assignChild_of_missing {kind : RecordKind} {members : Fields Value} {segment : String}
    (hk : Role.ofSegment segment = .key) (new : Value) :
    (record kind members).assignChild segment new = assign kind members segment new := by
  rw [assignChild, put_record_of_key kind members hk, Option.getD_some]

/-- The document with the container of a place written to by `write`, or with nothing there. -/
def editAt (write : Value → String → Value → Value) (v : Value) (q : Path) (new : Option Value) :
    Value :=
  match q.getLast?, v.at? q.dropLast with
  | some segment, some container =>
    v.putAt q.dropLast (new.elim (container.dropChild segment) (write container segment))
  | _, _ => v

section Edit
variable (write : Value → String → Value → Value)

theorem editAt_concat {v container : Value} {p : Path} (h : v.at? p = some container)
    (segment : String) (new : Option Value) :
    v.editAt write (p ++ [segment]) new =
      v.putAt p (new.elim (container.dropChild segment) (write container segment)) := by
  simp [editAt, h]

theorem editAt_concat_of_none {v : Value} {p : Path} (h : v.at? p = none) (segment : String)
    (new : Option Value) : v.editAt write (p ++ [segment]) new = v := by
  simp [editAt, h]

theorem editAt_singleton (v : Value) (segment : String) (new : Option Value) :
    v.editAt write [segment] new = new.elim (v.dropChild segment) (write v segment) := by
  have h := editAt_concat write (at?_nil v) segment new
  rwa [putAt_nil] at h

theorem editAt_cons {v child : Value} {segment : String} (h : v.child? segment = some child)
    {q : Path} (hq : q ≠ []) (new : Option Value) :
    v.editAt write (segment :: q) new = v.putChild segment (child.editAt write q new) := by
  rcases List.eq_nil_or_concat' q with rfl | ⟨p, last, rfl⟩
  · exact absurd rfl hq
  have hat : v.at? (segment :: p) = child.at? p := by rw [at?_cons, h, Option.bind_some]
  cases hc : child.at? p with
  | none =>
    rw [← List.cons_append, editAt_concat_of_none write (hat.trans hc),
      editAt_concat_of_none write hc, putChild_of_child? h]
  | some container =>
    rw [← List.cons_append, editAt_concat write (hat.trans hc), editAt_concat write hc,
      putAt_cons h]

/-- The document with another value at a place below its root, or with nothing there. -/
def writeAt (v : Value) (q : Path) (new : Option Value) : Value := v.editAt putChild q new

theorem writeAt_concat {v container : Value} {p : Path} (h : v.at? p = some container)
    (segment : String) (new : Option Value) :
    v.writeAt (p ++ [segment]) new =
      v.putAt p (new.elim (container.dropChild segment) (container.putChild segment)) :=
  editAt_concat putChild h segment new

/-! ### Rewriting the targets of a path -/

/-- The document with its targets rewritten by `write`, the last one first. -/
def rewriteTargets (f : Value → Value) (targets : List (Path × Option Value)) (v : Value) : Value :=
  targets.foldr (fun e left => left.editAt write e.1 (f (e.2.getD absent)).present?) v

variable (f : Value → Value) (every : Bool)

theorem rewriteTargets_append (before after : List (Path × Option Value)) (v : Value) :
    v.rewriteTargets write f (before ++ after) =
      (v.rewriteTargets write f after).rewriteTargets write f before :=
  List.foldr_append ..

theorem rewriteTargets_map_cons {v child : Value} {segment : String}
    (h : v.child? segment = some child) {targets : List (Path × Option Value)}
    (ht : ∀ e ∈ targets, e.1 ≠ []) :
    v.rewriteTargets write f (targets.map fun e => (segment :: e.1, e.2)) =
      v.putChild segment (child.rewriteTargets write f targets) := by
  induction targets with
  | nil => exact (putChild_of_child? h).symm
  | cons e rest ih =>
    have hr := ih fun e' he' => ht e' (List.mem_cons_of_mem _ he')
    have hc := child?_putChild h (child.rewriteTargets write f rest)
    show (v.rewriteTargets write f (rest.map fun e => (segment :: e.1, e.2))).editAt write
      (segment :: e.1) _ = _
    rw [hr, editAt_cons write hc (ht e List.mem_cons_self), putChild_putChild]
    rfl

/-- What is left of a node when the targets that a visit takes of a path are rewritten: nothing, if
the node is the target itself and nothing is written for it. -/
def leftBy (path : Path) (v : Value) : Option Value :=
  if path.isEmpty then (f v).present?
  else some (v.rewriteTargets write f (taken every (targets every path v)))

theorem leftBy_of_ne_nil {path : Path} (hp : path ≠ []) (v : Value) :
    v.leftBy write f every path =
      some (v.rewriteTargets write f (taken every (targets every path v))) := by
  simp [leftBy, hp]

/-- The writer replaces what stands under a segment. -/
def Replaces : Prop :=
  ∀ ⦃v child : Value⦄ ⦃segment : String⦄, v.child? segment = some child →
    ∀ new, write v segment new = v.putChild segment new

theorem leftBy_of_lacks {v : Value} {segment : String}
    (h : targets every [segment] v = [([segment], none)]) :
    v.leftBy write f every [segment] =
      some ((f absent).present?.elim (v.dropChild segment) (write v segment)) := by
  rw [leftBy_of_ne_nil write f every (List.cons_ne_nil segment []), h, taken_singleton]
  exact congrArg some (editAt_singleton write _ segment _)

variable {write}

/-- The node with the targets below a child rewritten is the node with what is left of the child in
its place. -/
theorem rewriteTargets_of_child? (hw : Replaces write) {v child : Value} {segment : String}
    (h : v.child? segment = some child) (rest : Path) :
    v.rewriteTargets write f
        ((taken every (targets every rest child)).map fun e => (segment :: e.1, e.2)) =
      (child.leftBy write f every rest).elim (v.dropChild segment) (v.putChild segment) := by
  cases rest with
  | nil =>
    rw [targets_nil, taken_singleton]
    refine (editAt_singleton write v segment _).trans ?_
    rw [funext (hw h)]
    rfl
  | cons s rest =>
    refine rewriteTargets_map_cons write f h fun e he => ?_
    exact ne_nil_of_mem_targets every (List.cons_ne_nil s rest) (mem_of_mem_taken he)

theorem leftBy_of_child? (hw : Replaces write) {v child : Value} {segment : String}
    (h : v.child? segment = some child) (rest : Path) :
    v.leftBy write f every (segment :: rest) =
      some ((child.leftBy write f every rest).elim (v.dropChild segment) (v.putChild segment)) := by
  rw [leftBy_of_ne_nil write f every (List.cons_ne_nil segment rest), targets_of_child? every h,
    taken_map, rewriteTargets_of_child? f every hw h]

theorem elim_child_array (behind ahead : List Value) (x : Value) (left : Option Value) :
    left.elim ((array (behind ++ x :: ahead)).dropChild (indexSegment behind.length))
        ((array (behind ++ x :: ahead)).putChild (indexSegment behind.length)) =
      array (behind ++ left.toList ++ ahead) := by
  cases left with
  | none => simp [dropChild, List.eraseIdx_append_of_length_le]
  | some w => simp [putChild]

theorem child?_append_cons (behind ahead : List Value) (x : Value) :
    (array (behind ++ x :: ahead)).child? (indexSegment behind.length) = some x := by
  rw [child?_array_of_index (Role.ofSegment_indexSegment _)]
  simp

/-- **Rewriting every target below the elements of an array** leaves what is left of each, in their
order. -/
theorem rewriteTargets_targetsBelow (hw : Replaces write) (rest : Path)
    (items behind : List Value) :
    (array (behind ++ items)).rewriteTargets write f
        (targetsBelow true rest items behind.length) =
      array (behind ++ items.filterMap (leftBy write f true rest)) := by
  induction items generalizing behind with
  | nil => rfl
  | cons x ahead ih =>
    -- the elements ahead come first, so the element is still at its position afterwards
    have ha := ih (behind ++ [x])
    rw [List.length_append, List.length_singleton, List.append_assoc, List.append_assoc,
      List.singleton_append, List.singleton_append] at ha
    have hx := rewriteTargets_of_child? f true hw
      (child?_append_cons behind (ahead.filterMap (leftBy write f true rest)) x) rest
    rw [targetsBelow_cons, rewriteTargets_append, ha]
    refine hx.trans ?_
    rw [elim_child_array, List.filterMap_cons]
    cases leftBy write f true rest x <;> simp

theorem leftBy_traversal (hw : Replaces write) (rest : Path) (items : List Value) :
    (array items).leftBy write f true (traversal :: rest) =
      some (array (items.filterMap (leftBy write f true rest))) := by
  rw [leftBy_of_ne_nil write f true (List.cons_ne_nil traversal rest), targets_traversal,
    if_neg (by simp), List.append_nil]
  exact congrArg some (rewriteTargets_targetsBelow f hw rest items [])

end Edit

theorem replaces_putChild : Replaces putChild := fun _ _ _ _ _ => rfl

theorem replaces_assignChild : Replaces assignChild := fun _ _ _ h => assignChild_of_child? h

/-! ### Assigning the targets -/

section Assign
variable (f : Value → Value)

/-- Rewriting the targets of the path gives no record another prototype: nothing is written where
nothing was, or no target is a place at which it would become one. -/
def KeepsPrototypes (path : Path) (v : Value) : Prop :=
  (f absent).present? = none ∨ ∀ e ∈ targets true path v, v.adoptsAt e.1 = false

theorem keepsPrototypes_nil (v : Value) : v.KeepsPrototypes f [] := by
  refine Or.inr fun e he => ?_
  obtain rfl := List.mem_singleton.mp he
  rfl

theorem keepsPrototypes_of_no_targets {path : Path} {v : Value} (h : targets true path v = []) :
    v.KeepsPrototypes f path := by
  refine Or.inr fun e he => ?_
  rw [h] at he
  cases he

theorem keepsPrototypes_cons {segment : String} {v : Value} (h : v.opening? true segment = none)
    (rest : Path) :
    v.KeepsPrototypes f (segment :: rest) ↔
      ∀ b ∈ v.branches segment, b.2.KeepsPrototypes f rest := by
  have hb : (∀ e ∈ targets true (segment :: rest) v, v.adoptsAt e.1 = false) ↔
      ∀ b ∈ v.branches segment, ∀ e ∈ targets true rest b.2, b.2.adoptsAt e.1 = false := by
    simp only [targets_cons, h, Option.toList_none, List.map_nil, ite_self, List.append_nil,
      List.forall_mem_flatMap, List.forall_mem_map]
    refine forall₂_congr fun b hb => forall₂_congr fun e _ => ?_
    rw [adoptsAt_cons (mem_branches.mp hb).2]
  simp only [KeepsPrototypes, hb, forall_or_left]

theorem keepsPrototypes_of_child? {v child : Value} {segment : String}
    (h : v.child? segment = some child) (rest : Path) :
    v.KeepsPrototypes f (segment :: rest) ↔ child.KeepsPrototypes f rest := by
  rw [keepsPrototypes_cons f (opening?_of_child? true h), branches_of_child? h,
    List.forall_mem_singleton]

theorem keepsPrototypes_traversal (items : List Value) (rest : Path) :
    (array items).KeepsPrototypes f (traversal :: rest) ↔
      ∀ x ∈ items, x.KeepsPrototypes f rest := by
  have ho : (array items).opening? true traversal = none := by cases items <;> simp [opening?]
  rw [keepsPrototypes_cons f ho, branches_any items Role.ofSegment_traversal, List.forall_mem_map,
    ← List.forall_mem_map (f := Prod.fst), List.zipIdx_map_fst]

/-- **To assign the targets is to put the values there exactly if no record is given another
prototype.** -/
theorem leftBy_assignChild_eq_iff (path : Path) (v : Value) :
    v.leftBy assignChild f true path = v.leftBy putChild f true path ↔
      v.KeepsPrototypes f path := by
  induction path generalizing v with
  | nil => exact iff_of_true rfl (keepsPrototypes_nil f v)
  | cons segment rest ih =>
    cases v.step "" segment with
    | misfit fault hm =>
      have ht := targets_of_misfit true hm rest
      exact iff_of_true (by simp [leftBy, ht, rewriteTargets]) (keepsPrototypes_of_no_targets f ht)
    | child child hm hc =>
      rw [keepsPrototypes_of_child? f hc, leftBy_of_child? f true replaces_assignChild hc,
        leftBy_of_child? f true replaces_putChild hc, ← ih]
      -- a child that is the target itself is there, so it is replaced in any case
      cases rest with
      | nil => exact iff_of_true rfl rfl
      | cons s rest =>
        simp only [leftBy_of_ne_nil _ f true (List.cons_ne_nil s rest), Option.elim_some,
          Option.some.injEq, putChild_inj hc]
    | spread items hv hs =>
      subst hv hs
      rw [keepsPrototypes_traversal, leftBy_traversal f replaces_assignChild,
        leftBy_traversal f replaces_putChild]
      simp only [← ih]
      cases rest with
      | nil => exact iff_of_true rfl fun x hx => rfl
      | cons s rest =>
        simp only [leftBy_of_ne_nil _ f true (List.cons_ne_nil s rest), Option.some.injEq,
          array.injEq, List.filterMap_eq_map', List.map_inj_left]
    | missing hm hs hc =>
      rcases targets_of_missing true hm hs hc rest with
        ⟨kind, members, rfl, rfl, hk, hg, ht⟩ | ⟨-, ht⟩
      · have ha : (record kind members).adoptsAt [segment] =
            (record kind members).adopts segment := adoptsAt_concat (at?_nil _) segment
        rw [leftBy_of_lacks _ f true ht, leftBy_of_lacks _ f true ht, KeepsPrototypes, ht,
          List.forall_mem_singleton, ha]
        cases (f absent).present? with
        | none => simp
        | some new =>
          rw [Option.elim_some, Option.elim_some, assignChild_of_missing hk, Option.some.injEq]
          simp [putChild, assign_eq_insert_iff hg new]
      · exact iff_of_true (by simp [leftBy, ht, rewriteTargets]) (keepsPrototypes_of_no_targets f ht)

end Assign

end Value

namespace Visitor

open Value

/-- A visitor that wants every target and rewrites it by its value. -/
def mapper (f : Value → Value) : Visitor := rewriter (fun _ => f) true

variable (f : Value → Value) (every : Bool) (budget : Nat)

/-! ### Traversals -/

section Traversals
variable {rest : Path} {trail : Trail} {descend : Descent}

/-- A traversal to all targets leaves what the descents leave of the elements. -/
theorem scanAll_left {leftOf : Value → Option Value}
    (hf : ∀ frame x history fault, (descend (frame :: trail) x history).result = .error fault →
      fault.isStructural = true) :
    ∀ (ahead results behind : List Value) (history : History),
      (∀ x ∈ ahead, ∀ frame history, (descend (frame :: trail) x history).left = leftOf x) →
      (scanAll descend trail results behind ahead history).left =
        behind.reverse ++ ahead.filterMap leftOf
  | [], results, behind, history, _ => by
    unfold scanAll
    split <;> simp [Outcome.miss, Outcome.fail]
  | x :: ahead, results, behind, history, hl => by
    obtain ⟨hlx, hrest⟩ := List.forall_mem_cons.mp hl
    have hx : ((leftOf x).toList ++ behind).reverse ++ ahead.filterMap leftOf =
        behind.reverse ++ (x :: ahead).filterMap leftOf := by
      rw [List.filterMap_cons]
      cases leftOf x <;> simp
    cases hr : (descend (.element (indexSegment behind.length) behind ahead :: trail) x
        history).result with
    | ok r => rw [scanAll_cons_of_ok rfl hr, scanAll_left hf _ _ _ _ hrest, hlx, hx]
    | error fault =>
      rw [scanAll_cons_of_error rfl hr (hf _ _ _ _ hr), scanAll_left hf _ _ _ _ hrest, hlx, hx]

theorem scanFirst_left (hd : DescentRewrites false rest trail descend) :
    ∀ (ahead behind : List Value) (history : History),
      (∀ x ∈ ahead, ∀ frame history,
        (descend (frame :: trail) x history).left = x.leftBy assignChild f false rest) →
      array (scanFirst descend trail behind ahead history).left =
        (array (behind.reverse ++ ahead)).rewriteTargets assignChild f
          (taken false (targetsBelow false rest ahead behind.length))
  | [], behind, history, _ => by simp [scanFirst, Outcome.miss, Outcome.fail, rewriteTargets]
  | x :: ahead, behind, history, hl => by
    obtain ⟨hlx, hrest⟩ := List.forall_mem_cons.mp hl
    have hx := hd (.element (indexSegment behind.length) behind ahead) x history
    have hleft := hlx (.element (indexSegment behind.length) behind ahead) history
    rw [targetsBelow_cons]
    generalize ho : descend (.element (indexSegment behind.length) behind ahead :: trail) x
      history = o at hx hleft
    cases ht : targets false rest x with
    | nil =>
      obtain ⟨hk, fault, hr, hs⟩ := hx.failed ht
      have ih := scanFirst_left hd ahead (x :: behind) o.history hrest
      rw [scanFirst_cons_of_error ho hr hs, hk]
      exact ih.trans (by simp)
    | cons e es =>
      obtain ⟨r, hr⟩ := hx.succeeded (by simp [ht])
      have hw := rewriteTargets_of_child? f false replaces_assignChild (child?_append_cons behind.reverse ahead x) rest
      rw [ht, elim_child_array, List.length_reverse] at hw
      have hone : taken false (((e :: es).map fun b => (indexSegment behind.length :: b.1, b.2)) ++
          targetsBelow false rest ahead (behind.length + 1)) =
          (taken false (e :: es)).map fun b => (indexSegment behind.length :: b.1, b.2) := rfl
      rw [scanFirst_cons_of_ok ho hr, hleft, hone, hw]
      cases leftBy assignChild f false rest x <;> simp

end Traversals

theorem traverse_rewriter_left {rest : Path} {trail : Trail}
    (h : every = false → rest = [] → ∀ v, (f v).present? = none)
    {items : List Value}
    (hl : ∀ x ∈ items, ∀ frame history, ((rewriter (fun _ => f) every).visit budget rest
      (frame :: trail) x history).left = x.leftBy assignChild f every rest)
    (history : History) :
    array ((rewriter (fun _ => f) every).traverse budget
        ((rewriter (fun _ => f) every).visit budget rest) rest.isEmpty trail items history).left =
      (array items).rewriteTargets assignChild f
        (taken every (targets every (traversal :: rest) (array items))) := by
  have hd : DescentRewrites every rest trail ((rewriter (fun _ => f) every).visit budget rest) :=
    fun frame x history => visit_rewrites (fun _ => f) every budget rest (frame :: trail) x history
  cases every with
  | true =>
    have hf : ∀ frame x history fault, ((rewriter (fun _ => f) true).visit budget rest
        (frame :: trail) x history).result = .error fault → fault.isStructural = true :=
      fun frame x history fault hr => ((hd frame x history).eq_nil_of_error hr).2
    have hs := scanAll_left hf items [] [] history hl
    rw [targets_traversal, if_neg (by simp), List.append_nil]
    exact (congrArg array hs).trans (rewriteTargets_targetsBelow f replaces_assignChild rest items []).symm
  | false =>
    cases rest with
    | nil =>
      obtain ⟨inner, stands, ha⟩ := appendAt_rewriter (fun _ => f) false trail history items 0
      have hn : (f (items[0]?.getD absent)).present? = none := h rfl rfl _
      have hw : (array items).editAt assignChild [indexSegment 0] none = array (items.eraseIdx 0) := by
        rw [editAt_singleton]
        simp [dropChild]
      show array ((rewriter (fun _ => f) false).traverse budget _ true trail items history).left = _
      rw [traverse_rewriter_last, ha, taken_targets_last]
      simp only [hn, Option.elim_none, rewriteTargets, List.foldr_cons, List.foldr_nil, hw]
    | cons segment rest =>
      rw [targets_traversal, if_neg (by simp), List.append_nil]
      exact scanFirst_left f hd items [] history hl

/-! ### The way down -/

/-- **What a visit that rewrites by the values alone leaves behind**, unless it appends. -/
theorem visit_rewriter_left {path : Path}
    (h : every = false → path.getLast? = some traversal → ∀ v, (f v).present? = none)
    (trail : Trail) (node : Value) (history : History) :
    ((rewriter (fun _ => f) every).visit budget path trail node history).left =
      node.leftBy assignChild f every path := by
  induction path generalizing trail node history with
  | nil => rfl
  | cons segment rest ih =>
    have hrest : every = false → rest.getLast? = some traversal → ∀ v, (f v).present? = none := by
      intro he hl
      refine h he ?_
      rw [List.getLast?_cons, hl]
      rfl
    cases node.step trail.key segment with
    | misfit fault hm =>
      rw [visit_misfit _ _ _ _ _ hm]
      simp [leftBy, targets_of_misfit every hm, rewriteTargets, Outcome.fail]
    | child child hm hc =>
      obtain ⟨frame, -, hfill, hdrop, hv⟩ :=
        visit_child (rewriter (fun _ => f) every) budget trail history rest hc
      rw [hv, Outcome.left_map, ih hrest, leftBy_of_child? f every replaces_assignChild hc]
      cases child.leftBy assignChild f every rest with
      | none => rw [hdrop, Option.elim_none]
      | some w => rw [hfill, Option.elim_some]
    | spread items hi hs =>
      subst hi hs
      have hlast : every = false → rest = [] → ∀ v, (f v).present? = none := by
        rintro he rfl
        exact h he rfl
      rw [visit_any _ _ _ _ _ _ Role.ofSegment_traversal, Outcome.left_map,
        traverse_rewriter_left f every budget hlast fun x _ frame => ih hrest (frame :: trail) x]
      rfl
    | missing hm hs hc =>
      rcases targets_of_missing every hm hs hc rest with
        ⟨kind, members, rfl, rfl, hk, hg, ht⟩ | ⟨hv, ht⟩
      · rw [visit_new_member _ _ _ _ hk hg rfl, target_rewriter, leftBy_of_lacks _ f every ht]
        cases hn : (f absent).present? with
        | none => simp [Outcome.map, hn, Frame.fill, dropChild]
        | some new => simp [Outcome.map, hn, Frame.fill, assignChild_of_missing hk]
      · have hv' : rest ≠ [] ∨ (rewriter (fun _ => f) every).rewrite = none ∨
            node.members? = none := hv.imp_right Or.inr
        rw [visit_missing _ _ _ _ hm hs hc hv']
        simp [leftBy, ht, rewriteTargets, Outcome.miss, Outcome.fail]

/-- **What a rewriter of a document leaves behind**, unless it appends. -/
theorem run_rewriter_left {path : Path} (hp : path ≠ [])
    (h : every = false → path.getLast? = some traversal → ∀ v, (f v).present? = none)
    (root : Value) :
    ((rewriter (fun _ => f) every).run budget root path).left =
      root.rewriteTargets assignChild f (taken every (targets every path root)) := by
  cases path with
  | nil => exact absurd rfl hp
  | cons segment rest =>
    have hl := visit_rewriter_left f every budget h [] root []
    show ((rewriter (fun _ => f) every).visit budget (segment :: rest) [] root
      []).left.getD root = _
    rw [hl]
    rfl

/-- **A visitor that wants every target is a map over the targets of its path.**  These are the
places at which an instance of the path leads to something, or would if its record had the last key.
If there are any, the visit succeeds, is offered what stands at each of them once and in the order
of the positions chosen, and leaves the document with each of them assigned; so each of them is
replaced exactly if nothing is written where nothing was, or no record takes it for its prototype.
If there are none, it fails and leaves the document as it was. -/
theorem run_mapper_rewrites_targets (root : Value) (path : Path) (hp : path ≠ []) :
    ∃ targets : List (Path × Option Value),
      (∀ q value, (q, some value) ∈ targets ↔ path.IsInstance q ∧ root.get q = .ok value) ∧
      (∀ q, (q, none) ∈ targets ↔ path.IsInstance q ∧ root.LacksMember q) ∧
      targets.Pairwise (fun e e' => path.choices e.1 < path.choices e'.1) ∧
      ((mapper f).run budget root path).history.offered =
        targets.map (fun e => e.2.getD absent) ∧
      (targets ≠ [] → (∃ r, ((mapper f).run budget root path).result = .ok r) ∧
        ((mapper f).run budget root path).left = root.rewriteTargets assignChild f targets ∧
        (((mapper f).run budget root path).left = root.rewriteTargets putChild f targets ↔
          (f absent).present? = none ∨ ∀ e ∈ targets, root.adoptsAt e.1 = false)) ∧
      (targets = [] → (∃ fault, ((mapper f).run budget root path).result = .error fault) ∧
        ((mapper f).run budget root path).left = root) := by
  have hr := run_rewrites (fun _ => f) true budget root path
  refine ⟨targets true path root, fun q value => mem_targets true, fun q => ?_,
    pairwise_choices_targets true path root, hr.offered, fun ht => ⟨hr.succeeded ht, ?_⟩,
    fun ht => ?_⟩
  · rw [mem_targets]
    simp
  · have hl : ((mapper f).run budget root path).left =
        root.rewriteTargets assignChild f (targets true path root) :=
      run_rewriter_left f true budget hp nofun root
    have hiff := leftBy_assignChild_eq_iff f path root
    rw [leftBy_of_ne_nil _ f true hp, leftBy_of_ne_nil _ f true hp, Option.some.injEq] at hiff
    rw [hl]
    exact ⟨rfl, hiff⟩
  · obtain ⟨hk, fault, hf, -⟩ := hr.failed ht
    exact ⟨⟨fault, hf⟩, hk⟩

/-- Elements are removed from the arrays that are being visited, and an element that the rest of the
path does not fit stays where it is. -/
theorem run_mapper_removes_elements :
    let root := object [("a", array [array [string "x", string "y", string "x"], string "z",
      array [string "x"]])]
    let path : Path := ["a", "-", "-"]
    let f : Value → Value := fun v => if v.same (string "y") then string "w" else absent
    let left := object [("a", array [array [string "w"], string "z", array []])]
    path ≠ [] ∧ ((mapper f).run 0 root path).left = left ∧
      ∃ targets : List (Path × Option Value), root.rewriteTargets putChild f targets = left ∧
        (∀ q value, (q, some value) ∈ targets ↔ path.IsInstance q ∧ root.get q = .ok value) ∧
        targets.map (fun e => e.2.getD absent) =
          [string "x", string "y", string "x", string "x"] := by
  intro root path f left
  have hp : path ≠ [] := by decide
  obtain ⟨targets, hsome, -, -, hoffered, hok, -⟩ := run_mapper_rewrites_targets f 0 root path hp
  have ho : ((mapper f).run 0 root path).history.offered =
      [string "x", string "y", string "x", string "x"] := by rfl
  have hl : ((mapper f).run 0 root path).left = left := by rfl
  have ht : targets ≠ [] := by
    rintro rfl
    rw [ho] at hoffered
    cases hoffered
  have hnew : (f absent).present? = none := by rfl
  exact ⟨hp, hl, targets, ((hok ht).2.2.mpr (Or.inl hnew)).symm.trans hl, hsome, hoffered.symm.trans ho⟩

/-- A text cannot be a prototype, so the one target is left as it was. -/
theorem run_mapper_text_for_prototype :
    let root := object []
    let f : Value → Value := fun _ => string "x"
    let targets : List (Path × Option Value) := [(["__proto__"], none)]
    root.LacksMember ["__proto__"] ∧
      ((mapper f).run 0 root ["__proto__"]).result = .ok (string "x") ∧
      ((mapper f).run 0 root ["__proto__"]).history.offered = [absent] ∧
      ((mapper f).run 0 root ["__proto__"]).left = root ∧
      root.rewriteTargets putChild f targets = object [("__proto__", string "x")] := by
  intro root f targets
  have hlacks : root.LacksMember ([] ++ ["__proto__"]) :=
    (lacksMember_concat (by simp)).mpr ⟨.plain, [], rfl, by decide, rfl⟩
  exact ⟨hlacks, by rfl, by rfl, by rfl, by rfl⟩

end Visitor

end Manifest
