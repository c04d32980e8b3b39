import Manifest.Location
import Manifest.Value.Prototype
import Mathlib.Data.List.Infix

/-!
# Places of a document

An index can be written with leading zeros, so two paths may name one place: `Path.normal` writes
every index in its shortest form, and looking up does not see the difference (`at?_normal`).  A path
`Covers` another if the second leads to the same place or to one below it.

`Value.put` writes below a container: it replaces an element, appends one through `-`, or assigns a
member; `Value.slot` is the segment under which the value is found afterwards, unless a record has
taken it for its prototype (`child?_slot_of_put`).  A container that is changed under one segment
only (`Value.AgreeBut`) is seen to be changed from no place apart from that segment
(`at?_putAt_of_agreeBut`), and a place that is new lies at the segment or below it
(`covers_of_new`).
-/

namespace Manifest

/-! ### Normal paths -/

/-- The segment with an index in its shortest form; other segments stay. -/
def normalSegment (segment : String) : String :=
  match Role.ofSegment segment with
  | .index n => indexSegment n
  | _ => segment

theorem normalSegment_of_index {segment : String} {n : Nat}
    (h : Role.ofSegment segment = .index n) : normalSegment segment = indexSegment n := by
  simp only [normalSegment, h]

theorem normalSegment_of_key {segment : String} (h : Role.ofSegment segment = .key) :
    normalSegment segment = segment := by
  simp only [normalSegment, h]

@[simp] theorem ofSegment_normalSegment (segment : String) :
    Role.ofSegment (normalSegment segment) = Role.ofSegment segment := by
  cases h : Role.ofSegment segment with
  | index n => rw [normalSegment_of_index h, Role.ofSegment_indexSegment]
  | _ => simp only [normalSegment, h]

namespace Path

/-- The path with every index in its shortest form. -/
def normal (path : Path) : Path := path.map normalSegment

/-- The first path leads to the place of the second or to one above it. -/
def Covers (p q : Path) : Prop := p.normal <+: q.normal

instance (p q : Path) : Decidable (p.Covers q) := inferInstanceAs (Decidable (_ <+: _))

@[simp] theorem nil_covers (q : Path) : Covers [] q := List.nil_prefix

theorem cons_covers_cons {s t : String} {p q : Path} :
    Covers (s :: p) (t :: q) ↔ normalSegment s = normalSegment t ∧ p.Covers q :=
  List.cons_prefix_cons

/-- A path that covers a place covers the container of it or names the place itself. -/
theorem covers_concat {p q : Path} {s : String} (h : q.Covers (p ++ [s])) :
    (p ++ [s]).Covers q ∨ q.Covers p := by
  have hs : (p ++ [s]).normal = p.normal ++ [normalSegment s] := by simp [normal]
  unfold Covers at h ⊢
  rw [hs] at h ⊢
  rcases List.prefix_concat_iff.mp h with he | hp
  · exact Or.inl (by rw [he])
  · exact Or.inr hp

end Path

namespace Value

/-! ### Looking up -/

theorem child?_array_of_index {items : List Value} {segment : String} {n : Nat}
    (h : Role.ofSegment segment = .index n) : (array items).child? segment = items[n]? := by
  simp only [child?, h]

theorem child?_record_of_key {kind : RecordKind} {members : Fields Value} {segment : String}
    (h : Role.ofSegment segment = .key) :
    (record kind members).child? segment = Fields.get? members segment := by
  simp [child?, h, Role.ofArray]

@[simp] theorem child?_traversal (v : Value) : v.child? traversal = none := by
  cases v <;> simp [child?, Role.ofArray]

theorem child?_normalSegment (v : Value) (segment : String) :
    v.child? (normalSegment segment) = v.child? segment := by
  cases h : Role.ofSegment segment with
  | key => rw [normalSegment_of_key h]
  | _ => cases v <;> simp [child?, h, Role.ofArray]

theorem container_of_child? {v child : Value} {segment : String}
    (h : v.child? segment = some child) :
    (∃ items n, v = array items ∧ Role.ofSegment segment = .index n ∧ items[n]? = some child) ∨
      ∃ kind members, v = record kind members ∧ Role.ofSegment segment = .key ∧
        Fields.get? members segment = some child := by
  cases v with
  | array items =>
    cases hs : Role.ofSegment segment with
    | index n => exact Or.inl ⟨items, n, rfl, rfl, by rwa [child?_array_of_index hs] at h⟩
    | _ => simp [child?, hs] at h
  | record kind members =>
    cases hs : Role.ofSegment segment with
    | key => exact Or.inr ⟨kind, members, rfl, rfl, by rwa [child?_record_of_key hs] at h⟩
    | _ => simp [child?, hs, Role.ofArray] at h
  | _ => simp [child?] at h

theorem at?_cons_eq_some_iff {v value : Value} {segment : String} {rest : Path} :
    v.at? (segment :: rest) = some value ↔
      ∃ child, v.child? segment = some child ∧ child.at? rest = some value := by
  rw [at?_cons, Option.bind_eq_some_iff]

theorem at?_append (v : Value) (p q : Path) :
    v.at? (p ++ q) = (v.at? p).bind fun value => value.at? q := by
  induction p generalizing v with
  | nil => simp
  | cons segment rest ih =>
    rw [List.cons_append, at?_cons, at?_cons]
    cases v.child? segment with
    | none => rfl
    | some child => exact ih child

theorem at?_append_of_at? {v value : Value} {p : Path} (h : v.at? p = some value) (q : Path) :
    v.at? (p ++ q) = value.at? q := by
  rw [at?_append, h, Option.bind_some]

theorem at?_singleton (v : Value) (segment : String) : v.at? [segment] = v.child? segment := by
  rw [at?_cons]
  cases v.child? segment <;> simp

theorem at?_concat_eq_some_iff {v value : Value} {p : Path} {segment : String} :
    v.at? (p ++ [segment]) = some value ↔
      ∃ container, v.at? p = some container ∧ container.child? segment = some value := by
  simp only [at?_append, Option.bind_eq_some_iff, at?_singleton]

theorem at?_entry {v : Value} {p : Path} {kind : RecordKind} {members : Fields Value}
    (h : v.at? p = some (record kind members)) {key : String} (hk : Role.ofSegment key = .key) :
    v.at? (p ++ [key]) = Fields.get? members key := by
  rw [at?_append_of_at? h, at?_singleton, child?_record_of_key hk]

@[simp] theorem at?_normal (v : Value) (path : Path) : v.at? path.normal = v.at? path := by
  induction path generalizing v with
  | nil => rfl
  | cons segment rest ih =>
    have hc := child?_normalSegment v segment
    show v.at? (normalSegment segment :: Path.normal rest) = _
    rw [at?_cons, at?_cons, hc]
    simp only [ih]

theorem exists_at?_of_covers {v value : Value} {p q : Path} (h : v.at? q = some value)
    (hpq : p.Covers q) : ∃ above, v.at? p = some above := by
  obtain ⟨rest, hr⟩ := hpq
  rw [← at?_normal, ← hr, at?_append] at h
  obtain ⟨above, ha, -⟩ := Option.bind_eq_some_iff.mp h
  exact ⟨above, by rwa [at?_normal] at ha⟩

theorem traversal_notMem_of_at? {v value : Value} {path : Path} (h : v.at? path = some value) :
    traversal ∉ path := by
  induction path generalizing v with
  | nil => simp
  | cons segment rest ih =>
    obtain ⟨child, hc, hr⟩ := at?_cons_eq_some_iff.mp h
    rw [List.mem_cons, not_or]
    refine ⟨?_, ih hr⟩
    rintro rfl
    simp at hc

/-! ### Putting values -/

theorem putChild_of_child? {v child : Value} {segment : String}
    (h : v.child? segment = some child) : v.putChild segment child = v := by
  rcases container_of_child? h with ⟨items, n, rfl, hs, hn⟩ | ⟨kind, members, rfl, hs, hm⟩
  · obtain ⟨hl, rfl⟩ := List.getElem?_eq_some_iff.mp hn
    simp only [putChild, hs, List.set_getElem_self]
  · simp only [putChild, Fields.insert_of_get? hm]

theorem putChild_putChild (v : Value) (segment : String) (a b : Value) :
    (v.putChild segment a).putChild segment b = v.putChild segment b := by
  cases v with
  | array items => cases hs : Role.ofSegment segment <;> simp [putChild, hs]
  | record kind members => simp only [putChild, Fields.insert_insert]
  | _ => rfl

theorem putChild_inj {v child a b : Value} {segment : String} (h : v.child? segment = some child) :
    v.putChild segment a = v.putChild segment b ↔ a = b := by
  refine ⟨fun hab => ?_, fun hab => by rw [hab]⟩
  have hc := congrArg (fun w => w.child? segment) hab
  simpa only [child?_putChild h, Option.some.injEq] using hc

theorem putAt_of_child?_none {v : Value} {segment : String} (h : v.child? segment = none)
    (rest : Path) (new : Value) : v.putAt (segment :: rest) new = v := by
  simp only [putAt, h]

theorem putAt_of_at? {v value : Value} {path : Path} (h : v.at? path = some value) :
    v.putAt path value = v := by
  induction path generalizing v with
  | nil => simpa using h.symm
  | cons segment rest ih =>
    obtain ⟨child, hc, hr⟩ := at?_cons_eq_some_iff.mp h
    rw [putAt_cons hc, ih hr, putChild_of_child? hc]

theorem putAt_append_of_at? {v value : Value} {p : Path} (h : v.at? p = some value) (q : Path)
    (new : Value) : v.putAt (p ++ q) new = v.putAt p (value.putAt q new) := by
  induction p generalizing v with
  | nil =>
    obtain rfl : v = value := by simpa using h
    rw [putAt_nil, List.nil_append]
  | cons segment rest ih =>
    obtain ⟨child, hc, hr⟩ := at?_cons_eq_some_iff.mp h
    rw [List.cons_append, putAt_cons hc, putAt_cons hc, ih hr]

theorem putAt_putAt {v old : Value} {path : Path} (h : v.at? path = some old) (a b : Value) :
    (v.putAt path a).putAt path b = v.putAt path b := by
  induction path generalizing v with
  | nil => simp
  | cons segment rest ih =>
    obtain ⟨child, hc, hr⟩ := at?_cons_eq_some_iff.mp h
    rw [putAt_cons hc, putAt_cons hc, putAt_cons (child?_putChild hc _), ih hr, putChild_putChild]

theorem child?_putChild_of_ne {v child : Value} {s t : String} (h : v.child? s = some child)
    (new : Value) (hne : normalSegment t ≠ normalSegment s) :
    (v.putChild s new).child? t = v.child? t := by
  rcases container_of_child? h with ⟨items, n, rfl, hs, -⟩ | ⟨kind, members, rfl, hs, -⟩
  · cases ht : Role.ofSegment t with
    | index m =>
      have hmn : n ≠ m := by
        rintro rfl
        exact hne (by rw [normalSegment_of_index hs, normalSegment_of_index ht])
      simp [child?, putChild, hs, ht, List.getElem?_set_ne hmn]
    | _ => simp [child?, putChild, hs, ht]
  · cases ht : Role.ofSegment t with
    | key =>
      have hst : t ≠ s := by
        rintro rfl
        exact hne rfl
      simp [child?, putChild, ht, Role.ofArray, Fields.get?_insert_of_ne _ _ hst]
    | _ => simp [child?, putChild, ht, Role.ofArray]

/-! ### Writing below a container -/

/-- The container after a value was written under a segment: in place of an element, appended through
`-`, or assigned as a member.  Nothing can be written elsewhere. -/
def put : Value → String → Value → Option Value
  | array items, segment, new =>
    match Role.ofSegment segment with
    | .key => none
    | .index n => if n < items.length then some (array (items.set n new)) else none
    | .any => some (array (items ++ [new]))
  | record kind members, segment, new =>
    if (Role.ofSegment segment).ofArray then none
    else some (assign kind members segment new)
  | _, _, _ => none

theorem child?_assign_of_ne (kind : RecordKind) (members : Fields Value) {key t : String}
    (new : Value) (h : t ≠ key) :
    (assign kind members key new).child? t = (record kind members).child? t := by
  cases ha : (record kind members).adopts key with
  | true =>
    rw [assign_of_adopts ha]
    rfl
  | false =>
    rw [assign_of_not_adopts ha]
    simp only [child?, Fields.get?_insert_of_ne members new h]

theorem child?_assign_of_adopts {kind : RecordKind} {members : Fields Value} {key : String}
    (h : (record kind members).adopts key = true) (new : Value) :
    (assign kind members key new).child? key = none := by
  rw [assign_of_adopts h]
  simp [child?, (adopts_record_iff.mp h).2.2]

theorem child?_of_adopts {v : Value} {key : String} (h : v.adopts key = true) :
    v.child? key = none := by
  cases v with
  | record kind members => simp [child?, (adopts_record_iff.mp h).2.2]
  | _ => cases h

theorem put_record_of_key (kind : RecordKind) (members : Fields Value) {key : String}
    (hk : Role.ofSegment key = .key) (new : Value) :
    (record kind members).put key new = some (assign kind members key new) := by
  simp [put, hk, Role.ofArray]

theorem put_of_child? {v child : Value} {segment : String} (h : v.child? segment = some child)
    (new : Value) : v.put segment new = some (v.putChild segment new) := by
  rcases container_of_child? h with ⟨items, n, rfl, hs, hn⟩ | ⟨kind, members, rfl, hs, hm⟩
  · have hl : n < items.length := (List.getElem?_eq_some_iff.mp hn).1
    simp only [put, putChild, hs, if_pos hl]
  · rw [put_record_of_key kind members hs, assign_of_get? hm]
    rfl

/-- The segment under which a value written below a container is found: `-` stands for the position
behind the last element. -/
def slot : Value → String → String
  | array items, segment =>
    if Role.ofSegment segment = .any then indexSegment items.length else segment
  | _, segment => segment

/-- The ways in which a value can be written below a container. -/
theorem put_cases {v new after : Value} {segment : String} (h : v.put segment new = some after) :
    (∃ child, v.child? segment = some child ∧ after = v.putChild segment new ∧
        v.slot segment = segment) ∨
      (∃ items, v = array items ∧ Role.ofSegment segment = .any ∧ after = array (items ++ [new]) ∧
        v.slot segment = indexSegment items.length) ∨
      ∃ kind members, v = record kind members ∧ Role.ofSegment segment = .key ∧
        Fields.get? members segment = none ∧ after = assign kind members segment new ∧
        v.slot segment = segment := by
  cases v with
  | array items =>
    cases hs : Role.ofSegment segment with
    | key => simp [put, hs] at h
    | index n =>
      simp only [put, hs] at h
      split at h
      · next hn =>
        refine Or.inl ⟨items[n], ?_, ?_, by simp [slot, hs]⟩
        · rw [child?_array_of_index hs, List.getElem?_eq_getElem hn]
        · simpa [putChild, hs] using h.symm
      · simp at h
    | any =>
      refine Or.inr (Or.inl ⟨items, rfl, rfl, ?_, by simp [slot, hs]⟩)
      simpa [put, hs] using h.symm
  | record kind members =>
    cases hs : Role.ofSegment segment with
    | key =>
      have ha : after = assign kind members segment new := by
        simpa [put, hs, Role.ofArray] using h.symm
      cases hm : Fields.get? members segment with
      | none => exact Or.inr (Or.inr ⟨kind, members, rfl, rfl, hm, ha, rfl⟩)
      | some child =>
        rw [assign_of_get? hm] at ha
        exact Or.inl ⟨child, by rw [child?_record_of_key hs, hm], ha, rfl⟩
    | _ => simp [put, hs, Role.ofArray] at h
  | _ => simp [put] at h

/-- What is written below a container is found at its slot, unless it became the prototype. -/
theorem child?_slot_of_put {v new after : Value} {segment : String}
    (h : v.put segment new = some after) (ha : v.adopts segment = false) :
    after.child? (v.slot segment) = some new := by
  rcases put_cases h with ⟨child, hc, rfl, hl⟩ | ⟨items, rfl, -, rfl, hl⟩ |
    ⟨kind, members, rfl, hs, -, rfl, hl⟩
  · rw [hl, child?_putChild hc]
  · rw [hl, child?_array_of_index (Role.ofSegment_indexSegment _), List.getElem?_concat_length]
  · rw [hl, assign_of_not_adopts ha, child?_record_of_key hs, Fields.get?_insert_self]

theorem child?_slot_of_adopts {v new after : Value} {segment : String}
    (h : v.put segment new = some after) (ha : v.adopts segment = true) :
    after.child? (v.slot segment) = none := by
  rcases put_cases h with ⟨child, hc, -, -⟩ | ⟨items, rfl, -, -, -⟩ |
    ⟨kind, members, rfl, -, -, rfl, hl⟩
  · rw [child?_of_adopts ha] at hc
    cases hc
  · cases ha
  · rw [hl, child?_assign_of_adopts ha]

theorem child?_of_put_of_ne {v new after : Value} {s t : String} (h : v.put s new = some after)
    (hne : normalSegment t ≠ normalSegment (v.slot s)) : after.child? t = v.child? t := by
  rcases put_cases h with ⟨child, hc, rfl, hl⟩ | ⟨items, rfl, -, rfl, hl⟩ |
    ⟨kind, members, rfl, -, -, rfl, hl⟩
  · exact child?_putChild_of_ne hc new (by rwa [hl] at hne)
  · cases ht : Role.ofSegment t with
    | index m =>
      have hm : m ≠ items.length := by
        rintro rfl
        refine hne ?_
        rw [hl, normalSegment_of_index ht, normalSegment_of_index (Role.ofSegment_indexSegment _)]
      rw [child?_array_of_index ht, child?_array_of_index ht]
      rcases Nat.lt_or_ge m items.length with hlt | hge
      · rw [List.getElem?_append_left hlt]
      · rw [List.getElem?_eq_none (by simp; omega), List.getElem?_eq_none hge]
    | _ => simp [child?, ht]
  · refine child?_assign_of_ne kind members new ?_
    rintro rfl
    exact hne (by rw [hl])

/-- What is assigned at the place becomes the prototype of the record above it. -/
def adoptsAt (v : Value) (place : Path) : Bool :=
  match place.getLast?, v.at? place.dropLast with
  | some segment, some container => container.adopts segment
  | _, _ => false

theorem adoptsAt_concat {v container : Value} {p : Path} (h : v.at? p = some container)
    (segment : String) : v.adoptsAt (p ++ [segment]) = container.adopts segment := by
  simp [adoptsAt, h]

theorem not_adoptsAt_of_at? {v old : Value} {place : Path} (h : v.at? place = some old) :
    v.adoptsAt place = false := by
  rcases List.eq_nil_or_concat' place with rfl | ⟨p, segment, rfl⟩
  · rfl
  obtain ⟨container, hp, hc⟩ := at?_concat_eq_some_iff.mp h
  rw [adoptsAt_concat hp, Bool.eq_false_iff]
  intro ha
  rw [child?_of_adopts ha] at hc
  cases hc

theorem adoptsAt_cons {v child : Value} {segment : String} (h : v.child? segment = some child)
    (q : Path) : v.adoptsAt (segment :: q) = child.adoptsAt q := by
  rcases List.eq_nil_or_concat' q with rfl | ⟨p, last, rfl⟩
  · exact not_adoptsAt_of_at? ((at?_singleton v segment).trans h)
  have hat : v.at? (segment :: p) = child.at? p := by rw [at?_cons, h, Option.bind_some]
  simp only [adoptsAt, ← List.cons_append, List.getLast?_concat, List.dropLast_concat, hat]

/-! ### Changing a container -/

/-- The two nodes have the same children, but perhaps not under one segment. -/
def AgreeBut (v w : Value) (segment : String) : Prop :=
  ∀ t, normalSegment t ≠ normalSegment segment → w.child? t = v.child? t

theorem agreeBut_put {v new after : Value} {segment : String} (h : v.put segment new = some after) :
    v.AgreeBut after (v.slot segment) := fun _ => child?_of_put_of_ne h

theorem agreeBut_putChild {v child : Value} {segment : String} (h : v.child? segment = some child)
    (new : Value) : v.AgreeBut (v.putChild segment new) segment :=
  fun _ => child?_putChild_of_ne h new

section Change
variable {v container after : Value} {p : Path} {segment : String}
  (hp : v.at? p = some container)
include hp

section Agree
variable (h : container.AgreeBut after segment)
include h

/-- **A place apart from the segment under which a container is changed sees nothing of it.** -/
theorem at?_putAt_of_agreeBut {q : Path} (hq : ¬ q.Covers (p ++ [segment]))
    (hq' : ¬ (p ++ [segment]).Covers q) : (v.putAt p after).at? q = v.at? q := by
  induction p generalizing v q with
  | nil =>
    obtain rfl : v = container := by simpa using hp
    cases q with
    | nil => exact absurd (Path.nil_covers _) hq
    | cons t rest =>
      rw [putAt_nil, at?_cons, at?_cons, h t]
      intro ht
      exact hq' (Path.cons_covers_cons.mpr ⟨ht.symm, Path.nil_covers _⟩)
  | cons s inner ih =>
    obtain ⟨child, hc, hr⟩ := at?_cons_eq_some_iff.mp hp
    cases q with
    | nil => exact absurd (Path.nil_covers _) hq
    | cons t rest =>
      rw [putAt_cons hc, at?_cons, at?_cons]
      by_cases ht : normalSegment t = normalSegment s
      · -- the two paths share their first segment, so they part further down
        have hct : v.child? t = some child := by
          rw [← child?_normalSegment, ht, child?_normalSegment, hc]
        have hnt : (v.putChild s (child.putAt inner after)).child? t =
            some (child.putAt inner after) := by
          rw [← child?_normalSegment, ht, child?_normalSegment, child?_putChild hc]
        rw [hct, hnt]
        refine ih hr (fun h => hq ?_) (fun h => hq' ?_)
        · exact Path.cons_covers_cons.mpr ⟨ht, h⟩
        · exact Path.cons_covers_cons.mpr ⟨ht.symm, h⟩
      · rw [child?_putChild_of_ne hc _ ht]

/-- **A place that is new lies at the segment under which a container is changed, or below it.** -/
theorem covers_of_new {q : Path} {value : Value} (hq : (v.putAt p after).at? q = some value)
    (hnew : v.at? q = none) : (p ++ [segment]).Covers q := by
  by_contra hcov
  have hq' : ¬ q.Covers (p ++ [segment]) := by
    intro h
    rcases Path.covers_concat h with hs | hs
    · exact hcov hs
    · obtain ⟨above, ha⟩ := exists_at?_of_covers hp hs
      rw [hnew] at ha
      cases ha
  rw [at?_putAt_of_agreeBut hp h hq' hcov, hnew] at hq
  cases hq

end Agree

/-- **A place apart from another sees nothing of what is put there.** -/
theorem at?_putAt_of_apart {q : Path} (hq : ¬ q.Covers p) (hq' : ¬ p.Covers q) (new : Value) :
    (v.putAt p new).at? q = v.at? q := by
  rcases List.eq_nil_or_concat' p with rfl | ⟨above, segment, rfl⟩
  · exact absurd (Path.nil_covers q) hq'
  obtain ⟨outer, ha, hc⟩ := at?_concat_eq_some_iff.mp hp
  rw [putAt_append_of_at? ha, putAt_cons hc, putAt_nil]
  exact at?_putAt_of_agreeBut ha (agreeBut_putChild hc new) hq hq'

end Change

/-- **What is written is found at the slot**, unless it became the prototype. -/
theorem at?_putAt_slot {v container new after : Value} {p : Path} {segment : String}
    (hp : v.at? p = some container) (hput : container.put segment new = some after)
    (ha : container.adopts segment = false) :
    (v.putAt p after).at? (p ++ [container.slot segment]) = some new := by
  rw [at?_append_of_at? (at?_putAt hp after), at?_singleton, child?_slot_of_put hput ha]

end Value

end Manifest
