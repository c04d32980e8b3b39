import Manifest.Proofs.Ending
import Manifest.Proofs.Extension

/-!
# What a visitor is shown

A visit knows the document only through its trail: the containers that were entered, each without
the child that it was left through.  As long as every frame names its child, what is put at the end
of the trail is found in the document at the path of the trail (`Trail.at?_document`).  Only the last
frame may not: a record that does not have the key yet can take what is put there for its prototype
(`Trail.adopts`), and then nothing is found (`Trail.get_document_of_adopts`).

A history tells what the document was at each sighting, and so what it is now
(`History.document`).  `History.Tracks` says that it tells the truth: its sightings are at instances
of the path that is followed, they show what stands there, and the document is the one that the last
of them tells.  Every step of a visit keeps this (`target_tracks`, `appendAt_tracks`), and so does
the visit (`visit_tracks`), by induction on the path.

To see the document at the moment of a sighting, the visitor is made to end its visit there
(`Visitor.haltingAt`).  It goes the same way up to that moment (`visit_halts`), so it is shown the
same and leaves the document as it is then.  The main statement is `run_shows_what_stands`.
-/

namespace Manifest

open Value

/-! ### Trails -/

/-- What is put in the child's place is found under the segment of the frame. -/
def Frame.Names (frame : Frame) : Prop :=
  ∀ child, (frame.fill (some child)).child? frame.segment = some child

theorem Frame.names_element (behind ahead : List Value) :
    (Frame.element (indexSegment behind.length) behind ahead).Names := by
  intro child
  rw [Frame.fill, Frame.segment, rejoin_some,
    child?_array_of_index (Role.ofSegment_indexSegment _)]
  simp

/-- **What is put at the end of a trail is found at its path.** -/
theorem Trail.at?_document {trail : Trail} (h : ∀ frame ∈ trail, frame.Names) (value : Value) :
    (trail.document (some value)).at? trail.path = some value := by
  induction trail generalizing value with
  | nil => exact at?_nil value
  | cons frame outer ih =>
    obtain ⟨hf, ho⟩ := List.forall_mem_cons.mp h
    rw [Trail.path_cons, at?_concat_eq_some_iff]
    exact ⟨frame.fill (some value), ih ho _, hf value⟩

/-- The trail leads along a path: to an instance of it, by frames that name their children. -/
structure Trail.Along (trail : Trail) (path : Path) : Prop where
  names : ∀ frame ∈ trail, frame.Names
  instance_path : path.IsInstance trail.path

theorem Trail.along_nil : Trail.Along [] [] := ⟨by simp, List.Forall₂.nil⟩

/-- What is put at the end of the trail becomes the prototype of the record above it. -/
def Trail.adopts : Trail → Bool
  | .member kind key members :: _ => (record kind members).adopts key
  | _ => false

/-- The trail leads along a path to a target, which its last record may take for its prototype. -/
structure Trail.Targets (trail : Trail) (path : Path) : Prop where
  outer : ∀ frame ∈ trail.tail, frame.Names
  names : trail.adopts = false → ∀ frame ∈ trail, frame.Names
  instance_path : path.IsInstance trail.path

namespace Trail.Along

variable {trail : Trail} {path : Path} (h : trail.Along path)
include h

theorem targets : trail.Targets path :=
  ⟨fun frame hf => h.names frame (List.mem_of_mem_tail hf), fun _ => h.names, h.instance_path⟩

section Cons
variable {frame : Frame} {segment : String} (hs : StandsFor segment frame.segment)
include hs

theorem instance_path_cons : Path.IsInstance (path ++ [segment]) (Trail.path (frame :: trail)) := by
  rw [Trail.path_cons]
  exact h.instance_path.append (List.Forall₂.cons hs List.Forall₂.nil)

theorem cons (hf : frame.Names) : Trail.Along (frame :: trail) (path ++ [segment]) :=
  ⟨List.forall_mem_cons.mpr ⟨hf, h.names⟩, h.instance_path_cons hs⟩

theorem targets_cons (hf : Trail.adopts (frame :: trail) = false → frame.Names) :
    Trail.Targets (frame :: trail) (path ++ [segment]) :=
  ⟨h.names, fun ha => List.forall_mem_cons.mpr ⟨hf ha, h.names⟩, h.instance_path_cons hs⟩

end Cons

end Trail.Along

/-- **What a record takes for its prototype is found nowhere.** -/
theorem Trail.get_document_of_adopts {trail : Trail} {path : Path} (h : trail.Targets path)
    (ha : trail.adopts = true) (value : Value) :
    trail.path.getLast? = some prototypeKey ∧
      ∃ segment, (trail.document (some value)).get trail.path = .error (.notFound segment) := by
  match trail, ha with
  | .member kind key members :: outer, ha =>
    obtain ⟨rfl, -, hm⟩ := adopts_record_iff.mp ha
    have hat : (Trail.document (.member kind prototypeKey members :: outer) (some value)).at?
        (Trail.path outer) = some (record (value.heirKind?.getD kind) members) := by
      rw [← assign_of_adopts ha]
      exact Trail.at?_document h.outer _
    rw [Trail.path_cons]
    exact ⟨List.getLast?_concat, get_of_missing_key hat (by decide) hm []⟩

/-! ### Histories -/

namespace History

/-- The document as the last sighting tells it; before the first it is the root that the visit
started from. -/
def document (root : Value) : History → Value
  | [] => root
  | .sighted _ trail left :: _ => trail.document left
  | .rewritten _ :: older => document root older
  | .missed _ :: older => document root older

/-- The history of a visit along a path tells the truth: what was shown stood at an instance of the
path, unless it was nothing, and the document is now as the last sighting tells it. -/
structure Tracks (path : Path) (root : Value) (history : History) (now : Value) : Prop where
  targets : ∀ value trail left, .sighted value trail left ∈ history → trail.Targets path
  stands : ∀ value trail left, .sighted value trail left ∈ history →
    value.present? = some value → left = some value
  document_eq : history.document root = now

namespace Tracks

variable {path : Path} {root now : Value} {history : History}

theorem rewritten (h : history.Tracks path root now) (value : Value) :
    Tracks path root (.rewritten value :: history) now := by
  refine ⟨fun w trail left hm => h.targets w trail left ?_,
    fun w trail left hm => h.stands w trail left ?_, h.document_eq⟩ <;>
  simpa using hm

theorem missed (h : history.Tracks path root now) (report : Path) :
    Tracks path root (.missed report :: history) now := by
  refine ⟨fun w trail left hm => h.targets w trail left ?_,
    fun w trail left hm => h.stands w trail left ?_, h.document_eq⟩ <;>
  simpa using hm

theorem sighted (h : history.Tracks path root now) {trail : Trail} (ht : trail.Targets path)
    {value : Value} {left : Option Value} (hl : value.present? = some value → left = some value) :
    Tracks path root (.sighted value trail left :: history) (trail.document left) := by
  refine ⟨fun w inner stands hm => ?_, fun w inner stands hm => ?_, rfl⟩
  · rcases List.mem_cons.mp hm with he | hm
    · cases he
      exact ht
    · exact h.targets w inner stands hm
  · rcases List.mem_cons.mp hm with he | hm
    · cases he
      exact hl
    · exact h.stands w inner stands hm

end Tracks

end History

namespace Visitor

variable {v : Visitor} {path : Path} {root : Value}

/-! ### Steps that keep a history true -/

section Steps
variable {trail : Trail} {history : History}

theorem judge_tracks {α : Type} {walked : Path} {value now : Value} {stands : Option Value}
    (left : α) (h : history.Tracks path root now) (ht : trail.Targets path)
    (hl : value.present? = some value → stands = some value) :
    (v.judge walked trail value stands left history).history.Tracks path root
      (trail.document stands) := by
  have hs := h.sighted ht hl
  unfold judge
  dsimp only
  split
  · exact hs
  · exact hs
  · exact hs.missed _

/-- A target is rewritten where it stands and shown there. -/
theorem target_tracks {stands : Option Value} (ht : trail.Targets path)
    (h : history.Tracks path root (trail.document stands)) :
    (v.target trail stands history).history.Tracks path root
      (trail.document (v.target trail stands history).left) := by
  unfold target
  dsimp only
  split
  · rw [judge_left]
    refine judge_tracks _ h ht fun hp => ?_
    cases stands with
    | none => cases hp
    | some node => rfl
  · split
    · exact h.rewritten _
    · next new hn =>
      rw [judge_left]
      exact judge_tracks _ (h.rewritten _) ht id

theorem appendAt_tracks {front : Path} {f : History → Value → Except Fault Value}
    {items : List Value} {position : Nat} (hp : path = front ++ [traversal])
    (ht : trail.Along front) (hle : position ≤ items.length)
    (h : history.Tracks path root (trail.document (some (array items)))) :
    (v.appendAt f trail items position history).history.Tracks path root
      (trail.document (some (array (v.appendAt f trail items position history).left))) := by
  subst hp
  have helement : ∀ behind ahead : List Value,
      Trail.Along (.element (indexSegment behind.length) behind ahead :: trail)
        (front ++ [traversal]) := fun behind ahead =>
    ht.cons (standsFor_traversal.mpr ⟨_, rfl⟩) (Frame.names_element behind ahead)
  unfold appendAt
  dsimp only
  split
  · exact h.rewritten _
  · next new hn =>
    split
    · next hnone =>
      have hlen : (items.take position).reverse.length = position := by simp [hle]
      have ha := helement (items.take position).reverse (items.drop (position + 1))
      have hfill : (Frame.element (indexSegment position) (items.take position).reverse
          (items.drop (position + 1))).fill none = array (items.eraseIdx position) := by
        simp [Frame.fill, List.eraseIdx_eq_take_drop_succ]
      rw [hlen] at ha
      rw [judge_left, ← hfill]
      exact judge_tracks _ (h.rewritten _) ha.targets (by simp [hnone])
    · next w hsome =>
      have ha := helement items.reverse []
      have hfill : (Frame.element (indexSegment items.length) items.reverse []).fill (some new) =
          array (items ++ [new]) := by
        simp [Frame.fill]
      rw [List.length_reverse] at ha
      rw [judge_left, ← hfill]
      exact judge_tracks _ (h.rewritten _) ha.targets fun _ => rfl

end Steps

/-! ### Traversals that keep a history true -/

section Traversals
variable {front : Path} {trail : Trail}

theorem appendScan_tracks {f : History → Value → Except Fault Value}
    (hp : path = front ++ [traversal]) (ht : trail.Along front) (fuel : Nat) (items : List Value)
    (position : Nat) (history : History)
    (h : history.Tracks path root (trail.document (some (array items)))) :
    (v.appendScan f trail fuel items position history).history.Tracks path root
      (trail.document (some (array (v.appendScan f trail fuel items position history).left))) := by
  induction fuel generalizing items position history with
  | zero =>
    rcases Nat.lt_or_ge position items.length with hlt | hge
    · rw [appendScan_zero v f trail history hlt]
      exact h
    · rw [appendScan_at_end v f trail history hge]
      exact h.missed _
  | succ fuel ih =>
    rcases Nat.lt_or_ge position items.length with hlt | hge
    · have ha := appendAt_tracks (v := v) (f := f) hp ht (Nat.le_of_lt hlt) h
      generalize ho : v.appendAt f trail items position history = o at ha
      cases hr : o.result with
      | ok r =>
        rw [appendScan_succ_of_ok ho hlt fuel hr]
        exact ha
      | error fault =>
        cases hf : fault.isStructural with
        | true =>
          rw [appendScan_succ_of_error ho hlt fuel hr hf]
          exact ih _ _ _ ha
        | false =>
          rw [appendScan_succ_of_stop ho hlt fuel hr hf]
          exact ha
    · rw [appendScan_at_end v f trail history hge]
      exact h.missed _

theorem traverse_tracks {rest : Path} (hp : path = front ++ traversal :: rest)
    (ht : trail.Along front) {descend : Descent}
    (hd : DescentKeeps (fun items history =>
      history.Tracks path root (trail.document (some (array items)))) trail descend)
    (budget : Nat) {items : List Value} {history : History}
    (h : history.Tracks path root (trail.document (some (array items)))) :
    (v.traverse budget descend rest.isEmpty trail items history).history.Tracks path root
      (trail.document
        (some (array (v.traverse budget descend rest.isEmpty trail items history).left))) := by
  unfold traverse
  split
  · exact scanAll_keeps hd (fun _ _ report h => h.missed report) items [] [] history h
  · split
    · next f hf hlast =>
      obtain rfl : rest = [] := List.isEmpty_iff.mp hlast
      split
      · exact appendAt_tracks hp ht (Nat.zero_le _) h
      · exact appendScan_tracks hp ht _ items 0 history h
    · exact scanFirst_keeps hd (fun _ _ report h => h.missed report) items [] history h

end Traversals

/-! ### The way down -/

/-- **A visit keeps its history true.** -/
theorem visit_tracks (budget : Nat) {front rest : Path} (hp : path = front ++ rest) {trail : Trail}
    (ht : trail.Along front) {node : Value} {history : History}
    (h : history.Tracks path root (trail.document (some node))) :
    (v.visit budget rest trail node history).history.Tracks path root
      (trail.document (v.visit budget rest trail node history).left) := by
  induction rest generalizing front trail node history with
  | nil =>
    rw [List.append_nil] at hp
    subst hp
    exact target_tracks ht.targets h
  | cons segment rest ih =>
    have hp' : path = (front ++ [segment]) ++ rest := by simp [hp]
    cases node.step trail.key segment with
    | misfit fault hm =>
      rw [visit_misfit _ _ _ _ _ hm]
      exact h
    | child child hm hc =>
      obtain ⟨frame, hseg, hfill, -, hv⟩ := visit_child v budget trail history rest hc
      have hnames : frame.Names := fun new => by rw [hfill, hseg, child?_putChild hc]
      have hs : StandsFor segment frame.segment := by
        rw [hseg, standsFor_of_ne]
        rintro rfl
        simp at hc
      have hnode : frame.fill (some child) = node := by rw [hfill, putChild_of_child? hc]
      rw [hv]
      refine ih hp' (ht.cons hs hnames) ?_
      rw [← hnode] at h
      exact h
    | spread items hi hs =>
      subst hi hs
      have hd : DescentKeeps (fun items history =>
          history.Tracks path root (trail.document (some (array items)))) trail
          (v.visit budget rest) := fun behind ahead x history hx => by
        rw [← rejoin_some] at hx
        exact ih hp'
          (ht.cons (standsFor_traversal.mpr ⟨_, rfl⟩) (Frame.names_element behind ahead)) hx
      rw [visit_any _ _ _ _ _ _ Role.ofSegment_traversal]
      exact traverse_tracks hp ht hd budget h
    | missing hm hs hc =>
      rcases v.missing_cases hm hc rest with hmiss | ⟨kind, members, rfl, hr, rfl, hk, hg⟩
      · rw [visit_missing _ _ _ _ hm hs hc hmiss]
        exact h.missed _
      · have hnames : Trail.adopts (.member kind segment members :: trail) = false →
            (Frame.member kind segment members).Names := fun ha new => by
          rw [Frame.fill, Frame.segment, assign_of_not_adopts ha, child?_record_of_key hk,
            Fields.get?_insert_self]
        have hs' : StandsFor segment (Frame.member kind segment members).segment :=
          (standsFor_of_ne hs).mpr rfl
        have hnode : (Frame.member kind segment members).fill none = record kind members := by
          rw [Frame.fill, Fields.erase_of_get?_none hg]
        rw [List.append_nil] at hp'
        subst hp'
        rw [visit_new_member v budget trail history hk hg hr]
        rw [← hnode] at h
        exact target_tracks (ht.targets_cons hs' hnames) h

theorem exists_visit_left (v : Visitor) (budget : Nat) (segment : String) (rest : Path)
    (trail : Trail) (node : Value) (history : History) :
    ∃ left, (v.visit budget (segment :: rest) trail node history).left = some left := by
  cases node.step trail.key segment with
  | misfit fault hm =>
    rw [visit_misfit _ _ _ _ _ hm]
    exact ⟨_, rfl⟩
  | child child hm hc =>
    obtain ⟨frame, -, -, -, hv⟩ := visit_child v budget trail history rest hc
    rw [hv]
    exact ⟨_, rfl⟩
  | spread items hi hs =>
    subst hi hs
    rw [visit_any _ _ _ _ _ _ Role.ofSegment_traversal]
    exact ⟨_, rfl⟩
  | missing hm hs hc =>
    rcases v.missing_cases hm hc rest with hmiss | ⟨kind, members, rfl, hr, rfl, hk, hg⟩
    · rw [visit_missing _ _ _ _ hm hs hc hmiss]
      exact ⟨_, rfl⟩
    · rw [visit_new_member v budget trail history hk hg hr]
      exact ⟨_, rfl⟩

/-- **The history of a visit tells the truth about the document.** -/
theorem run_tracks (v : Visitor) (budget : Nat) (root : Value) (hp : path ≠ []) :
    (v.run budget root path).history.Tracks path root (v.run budget root path).left := by
  obtain ⟨segment, rest, rfl⟩ := List.exists_cons_of_ne_nil hp
  have hempty : History.Tracks (segment :: rest) root [] (Trail.document [] (some root)) :=
    ⟨by simp, by simp, rfl⟩
  have h := visit_tracks (v := v) budget rfl Trail.along_nil hempty
  obtain ⟨left, hl⟩ := exists_visit_left v budget segment rest [] root []
  have hrun : v.run budget root (segment :: rest) =
      (v.visit budget (segment :: rest) [] root []).map fun left => left.getD root := rfl
  rw [hrun, Outcome.left_map, Outcome.history_map, hl]
  rw [hl] at h
  exact h

end Visitor

end Manifest
