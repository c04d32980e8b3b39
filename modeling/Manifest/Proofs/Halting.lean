import Manifest.Proofs.Sightings

/-!
# Visits that are halted

To see a document in the middle of a visit, the visitor is made to end the visit when it is shown
something at a given moment (`Visitor.haltingAt`).  Up to that moment the visit goes the same way,
and what it leaves is the document as it is then.

`Halts` compares a visit with the one that is halted: they are the same if nothing is shown at the
moment, and otherwise the second ends with the sighting.  `visit_halts` proves this by induction on
the path; what comes after an element is put together by `Halts.after`.

The main statement is `run_shows_what_stands`.
-/

namespace Manifest

/-- Nothing is shown at the moment, counted in events, from one history to a later one. -/
def History.QuietAt (moment : Nat) (history later : History) : Prop :=
  ∀ value trail left before, .sighted value trail left :: before <:+ later →
    before.length = moment → before.length < history.length

namespace Visitor

open Value

/-- The visitor that ends its visit when it is shown something after so many events. -/
def haltingAt (v : Visitor) (moment : Nat) : Visitor :=
  { v with accept := fun history value path =>
      if history.length = moment then .error (.interrupted "")
      else v.accept history value path }

theorem haltingAt_every (v : Visitor) (moment : Nat) : (v.haltingAt moment).every = v.every := rfl

theorem haltingAt_rewrite (v : Visitor) (moment : Nat) :
    (v.haltingAt moment).rewrite = v.rewrite := rfl

/-- A visit that has been ended by a sighting at the moment, to which it came on the way of the
visit that comes to `o`. -/
structure Halted {α : Type} (moment : Nat) (o o' : Outcome α) : Prop where
  result : o'.result = .error (.interrupted "")
  shown : ∃ value trail left before,
    o'.history = .sighted value trail left :: before ∧ before.length = moment
  history : o'.history <:+ o.history

/-- What a visit comes to with a visitor, `o`, and with the one that halts, `o'`: either nothing is
shown at the moment and the two are the same, or the second has been ended there. -/
structure Halts {α : Type} (moment : Nat) (history : History) (o o' : Outcome α) : Prop where
  grows : history <:+ o.history
  spared_or_halted : o' = o ∧ history.QuietAt moment o.history ∨ Halted moment o o'

namespace Halts

variable {α β : Type} {moment : Nat} {history : History} {o o' : Outcome α}

theorem refl (moment : Nat) (o : Outcome α) : Halts moment o.history o o :=
  ⟨List.suffix_refl _, Or.inl ⟨rfl, fun _ _ _ _ hs _ => hs.length_le⟩⟩

theorem map (h : Halts moment history o o') (f : α → β) :
    Halts moment history (o.map f) (o'.map f) := by
  refine ⟨h.grows, h.spared_or_halted.imp ?_ ?_⟩
  · rintro ⟨rfl, hq⟩
    exact ⟨rfl, hq⟩
  · exact fun hh => ⟨hh.result, hh.shown, hh.history⟩

/-- An event that shows nothing, or comes at another moment, does not halt a visit. -/
theorem of_cons {e : Event} (h : Halts moment (e :: history) o o')
    (he : ∀ value trail left, e = .sighted value trail left → history.length ≠ moment) :
    Halts moment history o o' := by
  refine ⟨(List.suffix_cons e history).trans h.grows, h.spared_or_halted.imp_left ?_⟩
  rintro ⟨rfl, hq⟩
  refine ⟨rfl, fun value trail left before hs hm => ?_⟩
  have hlt : before.length < history.length + 1 := hq value trail left before hs hm
  by_contra hge
  have hlen : before.length = history.length := by omega
  have hsame : .sighted value trail left :: before = e :: history :=
    (List.suffix_of_suffix_length_le hs h.grows (by simp [hlen])).eq_of_length (by simp [hlen])
  obtain ⟨hev, rfl⟩ := List.cons.inj hsame
  exact he value trail left hev.symm hm

section After
variable {p p' q : Outcome β} (h : Halts moment history o o')
  (hstop : o'.result = .error (.interrupted "") →
    p'.result = .error (.interrupted "") ∧ p'.history = o'.history)
include h hstop

/-- A visit that goes on behind `o` as `q` does, unless it has been halted before that. -/
theorem after (hq : Halts moment o.history p q) (hgo : o' = o → p' = q) :
    Halts moment history p p' := by
  refine ⟨h.grows.trans hq.grows, ?_⟩
  rcases h.spared_or_halted with ⟨rfl, hquiet⟩ | hh
  · rw [hgo rfl]
    refine hq.spared_or_halted.imp_left ?_
    rintro ⟨rfl, hquiet'⟩
    refine ⟨rfl, fun value trail left before hs hm => ?_⟩
    -- a sighting at the moment would be one of the first part
    have hlt := hquiet' value trail left before hs hm
    exact hquiet value trail left before (List.suffix_of_suffix_length_le hs hq.grows hlt) hm
  · obtain ⟨hres, hhist⟩ := hstop hh.result
    refine Or.inr ⟨hres, ?_, ?_⟩
    · rw [hhist]
      exact hh.shown
    · rw [hhist]
      exact hh.history.trans hq.grows

theorem ends (hp : p.history = o.history) (hgo : o' = o → p' = p) : Halts moment history p p' :=
  h.after hstop (hp ▸ Halts.refl moment p) hgo

end After

end Halts

variable (v : Visitor) (moment : Nat)

/-! ### Targets -/

section Targets
variable (trail : Trail) (history : History)

theorem miss_halts {α : Type} (walked : Path) (segment : String) (left : α) :
    Halts moment history (.miss walked segment left history)
      (.miss walked segment left history) :=
  (Halts.refl moment (Outcome.miss walked segment left history)).of_cons (by rintro _ _ _ ⟨⟩)

theorem judge_halts {α : Type} (walked : Path) (value : Value) (stands : Option Value) (left : α) :
    Halts moment history (v.judge walked trail value stands left history)
      ((v.haltingAt moment).judge walked trail value stands left history) := by
  -- what judging comes to, once it has shown the value
  have hseen : Halts moment (.sighted value trail stands :: history)
      (v.judge walked trail value stands left history)
      (v.judge walked trail value stands left history) := by
    unfold judge
    dsimp only
    split
    · exact Halts.refl moment (Outcome.fail _ left (.sighted value trail stands :: history))
    · exact Halts.refl moment (Outcome.mk (.ok value) left (.sighted value trail stands :: history))
    · exact miss_halts moment (.sighted value trail stands :: history) walked "" left
  by_cases hm : history.length = moment
  · have hhalt : (v.haltingAt moment).judge walked trail value stands left history =
        .fail (.interrupted "") left (.sighted value trail stands :: history) := by
      simp only [judge, haltingAt, if_pos hm]
    rw [hhalt]
    exact ⟨(List.suffix_cons _ _).trans hseen.grows,
      Or.inr ⟨rfl, ⟨value, trail, stands, history, rfl, hm⟩, hseen.grows⟩⟩
  · have hsame : (v.haltingAt moment).judge walked trail value stands left history =
        v.judge walked trail value stands left history := by
      simp only [judge, haltingAt, if_neg hm]
    rw [hsame]
    exact hseen.of_cons fun _ _ _ _ => hm

theorem target_halts (stands : Option Value) :
    Halts moment history (v.target trail stands history)
      ((v.haltingAt moment).target trail stands history) := by
  unfold target
  rw [haltingAt_rewrite]
  dsimp only
  cases v.rewrite with
  | none => exact judge_halts v moment trail history _ _ _ _
  | some f =>
    refine Halts.of_cons (e := .rewritten (stands.getD .absent)) ?_ (by rintro _ _ _ ⟨⟩)
    dsimp only
    cases f history (stands.getD .absent) with
    | error fault => exact Halts.refl moment (Outcome.fail fault stands _)
    | ok new => exact judge_halts v moment trail _ _ _ _ _

theorem appendAt_halts (f : History → Value → Except Fault Value) (items : List Value)
    (position : Nat) :
    Halts moment history (v.appendAt f trail items position history)
      ((v.haltingAt moment).appendAt f trail items position history) := by
  refine Halts.of_cons (e := .rewritten (items[position]?.getD .absent)) ?_ (by rintro _ _ _ ⟨⟩)
  unfold appendAt
  dsimp only
  cases f history (items[position]?.getD .absent) with
  | error fault => exact Halts.refl moment (Outcome.fail fault items _)
  | ok new =>
    dsimp only
    cases new.present? with
    | none => exact judge_halts v moment _ _ _ _ _ _
    | some w => exact judge_halts v moment _ _ _ _ _ _

end Targets

/-! ### Traversals -/

section Traversals
variable {moment} {trail : Trail} {d d' : Descent}

/-- Two descents below every element, of which the second halts. -/
def DescentHalts (moment : Nat) (trail : Trail) (d d' : Descent) : Prop :=
  ∀ frame x history, Halts moment history (d (frame :: trail) x history)
    (d' (frame :: trail) x history)

theorem scanFirst_halts (hd : DescentHalts moment trail d d') :
    ∀ (ahead behind : List Value) (history : History),
      Halts moment history (scanFirst d trail behind ahead history)
        (scanFirst d' trail behind ahead history)
  | [], behind, history => miss_halts moment history trail.path traversal _
  | x :: ahead, behind, history => by
    have hx := hd (.element (indexSegment behind.length) behind ahead) x history
    generalize ho : d (.element (indexSegment behind.length) behind ahead :: trail) x history = o
      at hx
    generalize ho' : d' (.element (indexSegment behind.length) behind ahead :: trail) x history = o'
      at hx
    have hstop : o'.result = .error (.interrupted "") →
        (scanFirst d' trail behind (x :: ahead) history).result = .error (.interrupted "") ∧
          (scanFirst d' trail behind (x :: ahead) history).history = o'.history := by
      intro hi
      rw [scanFirst_cons_of_stop ho' hi rfl]
      exact ⟨rfl, rfl⟩
    cases hr : o.result with
    | ok r =>
      rw [scanFirst_cons_of_ok ho hr]
      refine hx.ends hstop rfl fun he => ?_
      subst he
      exact scanFirst_cons_of_ok ho' hr
    | error fault =>
      cases hf : fault.isStructural with
      | true =>
        have ih := scanFirst_halts hd ahead (o.left.toList ++ behind) o.history
        rw [scanFirst_cons_of_error ho hr hf]
        refine hx.after hstop ih fun he => ?_
        subst he
        exact scanFirst_cons_of_error ho' hr hf
      | false =>
        rw [scanFirst_cons_of_stop ho hr hf]
        refine hx.ends hstop rfl fun he => ?_
        subst he
        exact scanFirst_cons_of_stop ho' hr hf

theorem scanAll_halts (hd : DescentHalts moment trail d d') :
    ∀ (ahead results behind : List Value) (history : History),
      Halts moment history (scanAll d trail results behind ahead history)
        (scanAll d' trail results behind ahead history)
  | [], results, behind, history => by
    unfold scanAll
    split
    · exact miss_halts moment history trail.path traversal _
    · exact Halts.refl moment (Outcome.mk (.ok _) _ history)
  | x :: ahead, results, behind, history => by
    have hx := hd (.element (indexSegment behind.length) behind ahead) x history
    generalize ho : d (.element (indexSegment behind.length) behind ahead :: trail) x history = o
      at hx
    generalize ho' : d' (.element (indexSegment behind.length) behind ahead :: trail) x history = o'
      at hx
    have hstop : o'.result = .error (.interrupted "") →
        (scanAll d' trail results behind (x :: ahead) history).result =
            .error (.interrupted "") ∧
          (scanAll d' trail results behind (x :: ahead) history).history = o'.history := by
      intro hi
      rw [scanAll_cons_of_stop ho' hi rfl]
      exact ⟨rfl, rfl⟩
    cases hr : o.result with
    | ok r =>
      have ih := scanAll_halts hd ahead (r :: results) (o.left.toList ++ behind) o.history
      rw [scanAll_cons_of_ok ho hr]
      refine hx.after hstop ih fun he => ?_
      subst he
      exact scanAll_cons_of_ok ho' hr
    | error fault =>
      cases hf : fault.isStructural with
      | true =>
        have ih := scanAll_halts hd ahead results (o.left.toList ++ behind) o.history
        rw [scanAll_cons_of_error ho hr hf]
        refine hx.after hstop ih fun he => ?_
        subst he
        exact scanAll_cons_of_error ho' hr hf
      | false =>
        rw [scanAll_cons_of_stop ho hr hf]
        refine hx.ends hstop rfl fun he => ?_
        subst he
        exact scanAll_cons_of_stop ho' hr hf

theorem appendScan_halts (f : History → Value → Except Fault Value) (trail : Trail) (fuel : Nat)
    (items : List Value) (position : Nat) (history : History) :
    Halts moment history (v.appendScan f trail fuel items position history)
      ((v.haltingAt moment).appendScan f trail fuel items position history) := by
  induction fuel generalizing items position history with
  | zero =>
    rcases Nat.lt_or_ge position items.length with hlt | hge
    · rw [appendScan_zero _ f trail history hlt, appendScan_zero _ f trail history hlt]
      exact Halts.refl moment (Outcome.fail .endless items history)
    · rw [appendScan_at_end _ f trail history hge, appendScan_at_end _ f trail history hge]
      exact miss_halts moment history trail.path traversal items
  | succ fuel ih =>
    rcases Nat.lt_or_ge position items.length with hlt | hge
    · have ha := appendAt_halts v moment trail history f items position
      generalize ho : v.appendAt f trail items position history = o at ha
      generalize ho' : (v.haltingAt moment).appendAt f trail items position history = o' at ha
      have hstop : o'.result = .error (.interrupted "") →
          ((v.haltingAt moment).appendScan f trail (fuel + 1) items position history).result =
              .error (.interrupted "") ∧
            ((v.haltingAt moment).appendScan f trail (fuel + 1) items position history).history =
              o'.history := by
        intro hi
        rw [appendScan_succ_of_stop ho' hlt fuel hi rfl]
        exact ⟨hi, rfl⟩
      cases hr : o.result with
      | ok r =>
        rw [appendScan_succ_of_ok ho hlt fuel hr]
        refine ha.ends hstop rfl fun he => ?_
        subst he
        exact appendScan_succ_of_ok ho' hlt fuel hr
      | error fault =>
        cases hf : fault.isStructural with
        | true =>
          have hnext := ih o.left (position + 1) o.history
          rw [appendScan_succ_of_error ho hlt fuel hr hf]
          refine ha.after hstop hnext fun he => ?_
          subst he
          exact appendScan_succ_of_error ho' hlt fuel hr hf
        | false =>
          rw [appendScan_succ_of_stop ho hlt fuel hr hf]
          refine ha.ends hstop rfl fun he => ?_
          subst he
          exact appendScan_succ_of_stop ho' hlt fuel hr hf
    · rw [appendScan_at_end _ f trail history hge, appendScan_at_end _ f trail history hge]
      exact miss_halts moment history trail.path traversal items

theorem traverse_halts {rest : Path} (budget : Nat) (hd : DescentHalts moment trail d d')
    (items : List Value) (history : History) :
    Halts moment history (v.traverse budget d rest.isEmpty trail items history)
      ((v.haltingAt moment).traverse budget d' rest.isEmpty trail items history) := by
  unfold traverse
  rw [haltingAt_every, haltingAt_rewrite]
  split
  · exact scanAll_halts hd items [] [] history
  · split
    · next f hf hlast =>
      split
      · exact appendAt_halts v moment trail history f items 0
      · exact appendScan_halts v f trail _ items 0 history
    · exact scanFirst_halts hd items [] history

end Traversals

/-! ### The way down -/

/-- **A visit that halts goes the same way up to the moment.** -/
theorem visit_halts (budget : Nat) (path : Path) (trail : Trail) (node : Value)
    (history : History) :
    Halts moment history (v.visit budget path trail node history)
      ((v.haltingAt moment).visit budget path trail node history) := by
  induction path generalizing trail node history with
  | nil => exact target_halts v moment trail history (some node)
  | cons segment rest ih =>
    cases node.step trail.key segment with
    | misfit fault hm =>
      rw [visit_misfit _ _ _ _ _ hm, visit_misfit _ _ _ _ _ hm]
      exact Halts.refl moment (Outcome.fail fault (some node) history)
    | child child hm hc =>
      rcases container_of_child? hc with ⟨items, n, rfl, hs, hn⟩ | ⟨kind, members, rfl, hs, hg⟩
      · rw [visit_index v budget trail history rest hs hn,
          visit_index (v.haltingAt moment) budget trail history rest hs hn]
        exact (ih _ child history).map _
      · rw [visit_member v budget trail history rest hs hg,
          visit_member (v.haltingAt moment) budget trail history rest hs hg]
        exact (ih _ child history).map _
    | spread items hi hs =>
      subst hi hs
      have hd : DescentHalts moment trail (v.visit budget rest)
          ((v.haltingAt moment).visit budget rest) := fun frame x h => ih (frame :: trail) x h
      rw [visit_any _ _ _ _ _ _ Role.ofSegment_traversal,
        visit_any _ _ _ _ _ _ Role.ofSegment_traversal]
      exact (traverse_halts v budget hd items history).map _
    | missing hm hs hc =>
      rcases v.missing_cases hm hc rest with hmiss | ⟨kind, members, rfl, hr, rfl, hk, hg⟩
      · have hmiss' : rest ≠ [] ∨ (v.haltingAt moment).rewrite = none ∨ node.members? = none :=
          hmiss
        rw [visit_missing _ _ _ _ hm hs hc hmiss, visit_missing _ _ _ _ hm hs hc hmiss']
        exact miss_halts moment history _ _ _
      · have hr' : (v.haltingAt moment).rewrite.isSome = true := hr
        rw [visit_new_member _ _ _ _ hk hg hr, visit_new_member _ _ _ _ hk hg hr']
        exact (target_halts v moment _ history none).map _

/-- **A document visited until the moment.** -/
theorem run_halts (budget : Nat) (root : Value) {path : Path} (hp : path ≠ []) :
    Halts moment [] (v.run budget root path) ((v.haltingAt moment).run budget root path) := by
  obtain ⟨segment, rest, rfl⟩ := List.exists_cons_of_ne_nil hp
  exact (visit_halts v moment budget (segment :: rest) [] root []).map fun left => left.getD root

/-! ### What is shown -/

/-- **A visitor is shown what stands in the document.**  When a value is shown at the end of a
trail, the path of the trail is an instance of the path that is followed: without `-`, as long and
with the same segments where the path has none.  A visit that is ended at this moment has gone the
same way, and in the document that it leaves the value is found at that path, unless it is none or a
record has taken it for its prototype. -/
theorem run_shows_what_stands (v : Visitor) (budget : Nat) (root : Value) {path : Path}
    (hp : path ≠ []) {later before : History} {value : Value} {trail : Trail}
    {stands : Option Value}
    (h : (v.run budget root path).history = later ++ .sighted value trail stands :: before) :
    (traversal ∉ trail.path ∧ trail.path.length = path.length ∧
        ∀ (i : Nat) segment, path[i]? = some segment → segment ≠ traversal →
          trail.path[i]? = some segment) ∧
      ((v.haltingAt before.length).run budget root path).result = .error (.interrupted "") ∧
      ((v.haltingAt before.length).run budget root path).history =
        .sighted value trail stands :: before ∧
      (value.present? = some value →
        (trail.adopts = false →
          ((v.haltingAt before.length).run budget root path).left.get trail.path = .ok value) ∧
        (trail.adopts = true → trail.path.getLast? = some prototypeKey ∧ ∃ segment,
          ((v.haltingAt before.length).run budget root path).left.get trail.path =
            .error (.notFound segment))) := by
  have hsuffix : .sighted value trail stands :: before <:+ (v.run budget root path).history :=
    h ▸ List.suffix_append _ _
  have hmem : .sighted value trail stands ∈ (v.run budget root path).history :=
    hsuffix.subset List.mem_cons_self
  have htracks := run_tracks v budget root hp
  have htargets := htracks.targets value trail stands hmem
  have hinst := htargets.instance_path
  refine ⟨⟨hinst.traversal_notMem, hinst.length_eq.symm, fun i segment => hinst.getElem?_eq⟩, ?_⟩
  rcases (run_halts v before.length budget root hp).spared_or_halted with ⟨-, hq⟩ | hh
  · exact absurd (hq value trail stands before hsuffix rfl) (Nat.not_lt_zero _)
  obtain ⟨value', trail', stands', before', hshown, hlen⟩ := hh.shown
  have hhist : ((v.haltingAt before.length).run budget root path).history =
      .sighted value trail stands :: before := by
    refine (List.suffix_of_suffix_length_le hh.history hsuffix ?_).eq_of_length ?_ <;>
    simp [hshown, hlen]
  refine ⟨hh.result, hhist, fun hv => ?_⟩
  have hhalted := run_tracks (v.haltingAt before.length) budget root hp
  have hl : stands = some value :=
    hhalted.stands value trail stands (hhist ▸ List.mem_cons_self) hv
  have hleft : ((v.haltingAt before.length).run budget root path).left =
      trail.document (some value) := by
    rw [← hhalted.document_eq, hhist, hl]
    rfl
  rw [hleft]
  exact ⟨fun ha => get_of_at? (Trail.at?_document (htargets.names ha) value),
    fun ha => Trail.get_document_of_adopts htargets ha value⟩

/-- The first element has been removed when the second is shown, at the position where it stands
by then. -/
theorem run_shows_what_stands_after_removal :
    let v : Visitor :=
      { every := true
        rewrite := some fun history value => .ok (if history.isEmpty then .absent else value) }
    let root := object [("a", array [string "x", string "y"])]
    ["a", "-"] ≠ [] ∧ ∃ trail stands before, trail.path = ["a", "0"] ∧
      (v.run 0 root ["a", "-"]).history =
        [] ++ .sighted (string "y") trail stands :: before ∧
      ((v.haltingAt before.length).run 0 root ["a", "-"]).left.get ["a", "0"] =
        .ok (string "y") := by
  intro v root
  have hp : ["a", "-"] ≠ [] := by simp
  let outer : Trail := [.member .plain "a" [("a", array [string "x", string "y"])]]
  let trail : Trail := .element (indexSegment 0) [] [] :: outer
  let before : History :=
    [.rewritten (string "y"),
      .sighted .absent (.element (indexSegment 0) [] [string "y"] :: outer) none,
      .rewritten (string "x")]
  have hpath : trail.path = ["a", "0"] := by decide +kernel
  have h : (v.run 0 root ["a", "-"]).history =
      [] ++ .sighted (string "y") trail (some (string "y")) :: before := by rfl
  exact ⟨hp, trail, _, before, hpath, h, hpath ▸ ((run_shows_what_stands v 0 root hp h).2.2.2 rfl).1 rfl⟩

/-- A text is shown that is written for a prototype, but it stands nowhere. -/
theorem run_shows_text_for_prototype :
    let v : Visitor := { rewrite := some fun _ _ => .ok (string "x") }
    let root := object []
    let o := (v.haltingAt 1).run 0 root ["__proto__"]
    ∃ trail before, trail.path = ["__proto__"] ∧ before.length = 1 ∧
      (v.run 0 root ["__proto__"]).history =
        .sighted (string "x") trail (some (string "x")) :: before ∧
      o.history = (v.run 0 root ["__proto__"]).history ∧
      o.left.get ["__proto__"] = .error (.notFound "__proto__") :=
  ⟨[.member .plain "__proto__" []], [.rewritten .absent], rfl, rfl, rfl, rfl, rfl⟩

end Visitor

end Manifest
