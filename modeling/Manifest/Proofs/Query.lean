import Manifest.Path.Query
import Manifest.Proofs.Instances

/-!
# Paths written as queries

Every path without empty segments and without ticks in its segments can be written as a query
(`Path.toQuery`): `-` as `[]`, an index in brackets, and a key between ticks or, if it holds no dot
and no bracket, as it stands; a dot is in front of every key but the first segment.  Where ticks are
not needed they may be written nevertheless, and `ticked` says where they are.

The reader goes over a written path segment by segment.  In between, `Scan.Read` says which segments
it has: those that it would give if the query ended there, with no tick open.  `Scan.Read.next`
takes it over one more segment, and the main statement `ofQuery_toQuery` follows by induction on the
path.
-/

namespace Manifest.Path

/-! ### Writing queries -/

/-- The characters that separate segments outside ticks. -/
def isDelimiter (c : Char) : Bool := c = '.' || c = '[' || c = ']'

/-- A key in a query: between ticks if these are wanted or if it holds a dot or a bracket. -/
def keyText (ticked : Bool) (key : String) : List Char :=
  if ticked || key.toList.any isDelimiter then tick :: key.toList ++ [tick] else key.toList

/-- A segment in a query, at its start or behind other segments. -/
def segmentText (start ticked : Bool) (segment : String) : List Char :=
  match Role.ofSegment segment with
  | .any => ['[', ']']
  | .index _ => '[' :: segment.toList ++ [']']
  | .key => (if start then [] else ['.']) ++ keyText ticked segment

/-- The segments of a path from a position on. -/
def segmentsText (ticked : Nat → Bool) : Nat → Path → List Char
  | _, [] => []
  | position, segment :: rest =>
    segmentText (position = 0) (ticked position) segment ++ segmentsText ticked (position + 1) rest

/-- Writes a path as a query, with ticks around the keys at the positions where they are wanted. -/
def toQuery (ticked : Nat → Bool) (path : Path) : String :=
  String.ofList (segmentsText ticked 0 path)

/-! ### Reading characters -/

namespace Scan

variable {s : Scan} {c : Char}

theorem step_delimiter (hq : s.quoted = false) (hc : isDelimiter c = true) :
    s.step c = s.flush (c = ']') := by
  have ht : c ≠ tick := by
    rintro rfl
    revert hc
    decide
  have hd : (c = '.' || c = '[' || c = ']') = true := hc
  unfold step
  rw [if_neg ht, hq, hd]
  rfl

theorem step_tick_of_quoted (hq : s.quoted = true) :
    s.step tick = { s.flush false with quoted := false } := by
  unfold step
  rw [if_pos rfl, if_pos hq]

theorem step_tick_of_not_quoted (hq : s.quoted = false) :
    s.step tick = { s with pending := [], quoted := true } := by
  unfold step
  rw [if_pos rfl, hq]
  rfl

theorem step_plain (ht : c ≠ tick) (hd : s.quoted = true ∨ isDelimiter c = false) :
    s.step c = { s with pending := s.pending ++ [c] } := by
  have hn : (!s.quoted && (c = '.' || c = '[' || c = ']')) = false := by
    rcases hd with hq | hc
    · rw [hq]
      rfl
    · rw [show (c = '.' || c = '[' || c = ']') = false from hc, Bool.and_false]
  unfold step
  rw [if_neg ht, if_neg (by rw [hn]; decide)]

theorem foldl_step_plain {text : List Char} (ht : tick ∉ text)
    (hd : s.quoted = true ∨ ∀ c ∈ text, isDelimiter c = false) :
    text.foldl step s = { s with pending := s.pending ++ text } := by
  induction text generalizing s with
  | nil => simp
  | cons c rest ih =>
    rw [List.mem_cons, not_or] at ht
    have hstep : s.step c = { s with pending := s.pending ++ [c] } :=
      step_plain (Ne.symm ht.1) (hd.imp_right fun h => h c List.mem_cons_self)
    have hrest : s.quoted = true ∨ ∀ c ∈ rest, isDelimiter c = false :=
      hd.imp_right fun h d hm => h d (List.mem_cons_of_mem _ hm)
    have hread := ih (s := { s with pending := s.pending ++ [c] }) ht.2 hrest
    rw [List.foldl_cons, hstep, hread]
    simp

/-! ### Reading segments -/

/-- The segments that have been read: those that a query ending here would give, with no tick
open. -/
def Read (s : Scan) (done : Path) : Prop := s.flush false = { segments := done }

variable {done : Path} {segment : String}

theorem Read.not_quoted (h : s.Read done) : s.quoted = false := congrArg Scan.quoted h

theorem flush_pending (done : Path) (quoted bracket : Bool) (hn : segment ≠ "") :
    flush { segments := done, pending := segment.toList, quoted := quoted } bracket =
      { segments := done ++ [segment], quoted := quoted } := by
  have hp : segment.toList ≠ [] := fun h => hn (String.toList_inj.mp h)
  simp [flush, hp]

theorem read_segments (done : Path) : Read { segments := done } done := rfl

theorem Read.any (h : s.Read done) : (['[', ']'].foldl step s).Read (done ++ [traversal]) := by
  have hopen : s.step '[' = { segments := done } :=
    (step_delimiter h.not_quoted rfl).trans h
  have hclose : Scan.step { segments := done } ']' = { segments := done ++ [traversal] } :=
    step_delimiter rfl rfl
  rw [List.foldl_cons, hopen, List.foldl_cons, hclose, List.foldl_nil]
  exact read_segments _

theorem Read.bracketed (h : s.Read done) (hn : segment ≠ "") (ht : tick ∉ segment.toList)
    (hd : ∀ c ∈ segment.toList, isDelimiter c = false) :
    (('[' :: segment.toList ++ [']']).foldl step s).Read (done ++ [segment]) := by
  have hopen : s.step '[' = { segments := done } :=
    (step_delimiter h.not_quoted rfl).trans h
  have hinside : segment.toList.foldl step { segments := done } =
      { segments := done, pending := segment.toList } := foldl_step_plain ht (Or.inr hd)
  have hclose : Scan.step { segments := done, pending := segment.toList } ']' =
      { segments := done ++ [segment] } :=
    (step_delimiter rfl rfl).trans (flush_pending done false true hn)
  rw [List.cons_append, List.foldl_cons, hopen, List.foldl_append, hinside, List.foldl_cons, hclose]
  exact read_segments _

theorem Read.separated (h : s.Read done) {start : Bool} (hs : start = true → s.pending = []) :
    (if start then [] else ['.']).foldl step s = { segments := done } := by
  cases start with
  | true =>
    have hp := hs rfl
    have hf : s.flush false = s := by
      obtain ⟨segments, pending, quoted⟩ := s
      obtain rfl : pending = [] := hp
      simp [flush]
    exact hf.symm.trans h
  | false =>
    have hdot : s.step '.' = s.flush false := step_delimiter h.not_quoted rfl
    exact hdot.trans h

theorem read_keyText (done : Path) (ticked : Bool) (hn : segment ≠ "")
    (ht : tick ∉ segment.toList) :
    ((keyText ticked segment).foldl step { segments := done }).Read (done ++ [segment]) := by
  unfold keyText
  split
  · have hopen : Scan.step { segments := done } tick = { segments := done, quoted := true } :=
      step_tick_of_not_quoted rfl
    have hinside : segment.toList.foldl step { segments := done, quoted := true } =
        { segments := done, pending := segment.toList, quoted := true } :=
      foldl_step_plain ht (Or.inl rfl)
    have hclose : Scan.step { segments := done, pending := segment.toList, quoted := true } tick =
        { segments := done ++ [segment] } := by
      rw [step_tick_of_quoted rfl, flush_pending done true false hn]
    rw [List.cons_append, List.foldl_cons, hopen, List.foldl_append, hinside, List.foldl_cons,
      hclose]
    exact read_segments _
  · next hbare =>
    have hd : ∀ c ∈ segment.toList, isDelimiter c = false := by
      intro c hc
      by_contra hdelim
      refine hbare ?_
      rw [Bool.or_eq_true, List.any_eq_true]
      exact Or.inr ⟨c, hc, by simpa using hdelim⟩
    have hinside : segment.toList.foldl step { segments := done } =
        { segments := done, pending := segment.toList } := foldl_step_plain ht (Or.inr hd)
    rw [hinside]
    exact flush_pending done false false hn

end Scan

theorem isDigit_of_index {segment : String} {n : Nat} (h : Role.ofSegment segment = .index n) :
    ∀ c ∈ segment.toList, c.isDigit = true := by
  unfold Role.ofSegment Role.position? at h
  split at h
  · cases h
  · split at h
    · next m hm =>
      split at hm
      · next hall => exact List.all_eq_true.mp (Bool.and_eq_true_iff.mp hall).2
      · cases hm
    · cases h

theorem isDelimiter_of_isDigit {c : Char} (h : c.isDigit = true) : isDelimiter c = false := by
  have hne : ∀ mark : Char, mark.isDigit = false → c ≠ mark := by
    rintro mark hm rfl
    rw [h] at hm
    cases hm
  simp [isDelimiter, hne '.' rfl, hne '[' rfl, hne ']' rfl]

namespace Scan

variable {s : Scan} {done : Path} {segment : String}

/-- **One more segment is read from its text.** -/
theorem Read.next (h : s.Read done) {start : Bool} (hs : start = true → s.pending = [])
    (ticked : Bool) (hn : segment ≠ "") (ht : tick ∉ segment.toList) :
    ((segmentText start ticked segment).foldl step s).Read (done ++ [segment]) := by
  unfold segmentText
  cases hr : Role.ofSegment segment with
  | any =>
    obtain rfl : segment = traversal := Role.ofSegment_eq_any_iff.mp hr
    exact h.any
  | index n =>
    have hd : ∀ c ∈ segment.toList, isDelimiter c = false :=
      fun c hc => isDelimiter_of_isDigit (isDigit_of_index hr c hc)
    exact h.bracketed hn ht hd
  | key =>
    show (((if start then [] else ['.']) ++ keyText ticked segment).foldl step s).Read _
    rw [List.foldl_append, h.separated hs]
    exact read_keyText done ticked hn ht

theorem Read.segments (h : s.Read done) (ticked : Nat → Bool) {position : Nat}
    (hs : position = 0 → s.pending = []) {path : Path}
    (hp : ∀ segment ∈ path, segment ≠ "" ∧ tick ∉ segment.toList) :
    ((segmentsText ticked position path).foldl step s).Read (done ++ path) := by
  induction path generalizing s done position with
  | nil => simpa [segmentsText] using h
  | cons segment rest ih =>
    obtain ⟨hn, ht⟩ := hp segment List.mem_cons_self
    have hfirst := h.next (fun h0 => hs (of_decide_eq_true h0)) (ticked position) hn ht
    have hlater : position + 1 = 0 →
        ((segmentText (position = 0) (ticked position) segment).foldl step s).pending = [] :=
      fun h0 => absurd h0 (Nat.succ_ne_zero _)
    have hrest := ih hfirst hlater fun other ho => hp other (List.mem_cons_of_mem _ ho)
    rw [segmentsText, List.foldl_append]
    rwa [List.append_assoc, List.singleton_append] at hrest

end Scan

/-- **Every path can be written as a query.**  If no segment is empty or holds a tick, the path is
read back from its query, wherever ticks are written that need not be. -/
theorem ofQuery_toQuery {path : Path} (h : ∀ segment ∈ path, segment ≠ "" ∧ tick ∉ segment.toList)
    (ticked : Nat → Bool) : ofQuery (path.toQuery ticked) = path := by
  have hstart : 0 = 0 → Scan.pending {} = [] := fun _ => rfl
  have hread := (Scan.read_segments []).segments ticked hstart h
  rw [List.nil_append] at hread
  unfold ofQuery toQuery
  rw [String.toList_ofList]
  exact congrArg Scan.segments hread

/-- Dots and brackets in a key need ticks, other keys may have them. -/
theorem ofQuery_toQuery_of_mixed :
    let path : Path := ["spec", "a.b[0]", "-", "07", "name"]
    (∀ segment ∈ path, segment ≠ "" ∧ tick ∉ segment.toList) ∧
      path.toQuery (fun _ => false) = "spec.\x27a.b[0]\x27[][07].name" ∧
      path.toQuery (fun position => position = 4) = "spec.\x27a.b[0]\x27[][07].\x27name\x27" ∧
      ofQuery "spec.\x27a.b[0]\x27[][07].name" = path ∧
      ofQuery "spec.\x27a.b[0]\x27[][07].\x27name\x27" = path := by
  intro path
  have h : ∀ segment ∈ path, segment ≠ "" ∧ tick ∉ segment.toList := by decide +kernel
  have hbare : path.toQuery (fun _ => false) = "spec.\x27a.b[0]\x27[][07].name" := by
    decide +kernel
  have hticked : path.toQuery (fun position => position = 4) =
      "spec.\x27a.b[0]\x27[][07].\x27name\x27" := by decide +kernel
  refine ⟨h, hbare, hticked, ?_, ?_⟩
  · rw [← hbare]
    exact ofQuery_toQuery h _
  · rw [← hticked]
    exact ofQuery_toQuery h _

end Manifest.Path
