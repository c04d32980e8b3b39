import Manifest.Proofs.Location

/-!
# Documents

A document has the content of itself (`same_refl`).  Records are compared member by member through
look-up, so this rests on their keys being distinct; that the records are ordinary ones does not
matter (`Value.IsData`).

What is found in a document is a document (`isDocument_of_at?`).  A document into which another one
is written may have a record with another prototype, but it stays data when it is put at some place
(`isData_putAt`) or written below a container (`isData_put`).
-/

namespace Manifest

namespace Fields

variable {α : Type} {m : Fields α}

theorem get?_of_mem (hm : Distinct m) {e : String × α} (he : e ∈ m) : get? m e.1 = some e.2 := by
  induction m with
  | nil => cases he
  | cons first rest ih =>
    obtain ⟨hk, hr⟩ := List.nodup_cons.mp hm
    rcases List.mem_cons.mp he with rfl | he
    · exact if_pos rfl
    · have hne : first.1 ≠ e.1 := fun h => hk (h ▸ List.mem_map_of_mem he)
      exact (if_neg hne).trans (ih hr he)

theorem mem_of_get? {key : String} {v : α} (h : get? m key = some v) : (key, v) ∈ m := by
  induction m with
  | nil => cases h
  | cons first rest ih =>
    obtain ⟨k, w⟩ := first
    rw [get?_cons] at h
    by_cases hk : k = key
    · rw [if_pos hk, Option.some.injEq] at h
      rw [hk, h]
      exact List.mem_cons_self
    · rw [if_neg hk] at h
      exact List.mem_cons_of_mem _ (ih h)

theorem get?_tail_eq_none {e : String × α} (hm : Distinct (e :: m)) : get? m e.1 = none := by
  refine Option.eq_none_iff_forall_ne_some.mpr fun v hv => (List.nodup_cons.mp hm).1 ?_
  exact List.mem_map.mpr ⟨(e.1, v), mem_of_get? hv, rfl⟩

theorem mem_insert {key : String} {v : α} {e : String × α} (h : e ∈ insert m key v) :
    e = (key, v) ∨ e ∈ m := by
  induction m with
  | nil => exact Or.inl (List.mem_singleton.mp h)
  | cons first rest ih =>
    obtain ⟨k, w⟩ := first
    rw [insert] at h
    by_cases hk : k = key
    · rw [if_pos hk, hk, List.mem_cons] at h
      exact h.imp_right (List.mem_cons_of_mem _)
    · rw [if_neg hk, List.mem_cons] at h
      rcases h with rfl | h
      · exact Or.inr List.mem_cons_self
      · exact (ih h).imp_right (List.mem_cons_of_mem _)

theorem distinct_insert (hm : Distinct m) (key : String) (v : α) : Distinct (insert m key v) := by
  induction m with
  | nil => simp [insert, Distinct, keys]
  | cons first rest ih =>
    obtain ⟨k, w⟩ := first
    obtain ⟨hk, hr⟩ := List.nodup_cons.mp hm
    rw [insert]
    by_cases he : k = key
    · rw [if_pos he]
      exact hm
    · rw [if_neg he]
      refine List.nodup_cons.mpr ⟨fun hmem => ?_, ih hr⟩
      obtain ⟨e, hmem, hek⟩ := List.mem_map.mp hmem
      rcases mem_insert hmem with rfl | hmem
      · exact he hek.symm
      · exact hk (List.mem_map.mpr ⟨e, hmem, hek⟩)

theorem insert_erase_perm (hm : Distinct m) {key : String} {v : α} (h : get? m key = some v) :
    (insert (erase m key) key v).Perm m := by
  have hout : (erase m key ++ [(key, v)]).Perm m := by
    induction m with
    | nil => cases h
    | cons first rest ih =>
      obtain ⟨k, w⟩ := first
      obtain ⟨hk, hr⟩ := List.nodup_cons.mp hm
      rw [get?_cons] at h
      by_cases he : k = key
      · subst he
        rw [if_pos rfl, Option.some.injEq] at h
        have hrest : erase ((k, w) :: rest) k = rest := by
          have hkeep := erase_of_get?_none (get?_tail_eq_none hm)
          unfold erase at hkeep ⊢
          rw [List.filter_cons_of_neg (by simp), hkeep]
        rw [hrest, h]
        exact List.perm_append_singleton _ _
      · rw [if_neg he] at h
        have hcons : erase ((k, w) :: rest) key = (k, w) :: erase rest key :=
          List.filter_cons_of_pos (by simpa using he)
        rw [hcons, List.cons_append]
        exact (ih hr h).cons _
  rwa [insert_of_get?_none v (get?_erase_self m key)]

end Fields

namespace Value

/-- Induction on the nodes of a document: arrays and records have what all their children have. -/
@[elab_as_elim]
theorem nodeInduction {motive : Value → Prop} (absent : motive absent) (vacant : motive vacant)
    (null : motive null) (bool : ∀ b, motive (bool b)) (number : ∀ n, motive (number n))
    (string : ∀ s, motive (string s))
    (array : ∀ items, (∀ v ∈ items, motive v) → motive (array items))
    (record : ∀ kind members, (∀ e ∈ members, motive e.2) → motive (record kind members))
    (foreign : ∀ f, motive (foreign f)) (v : Value) : motive v :=
  @Value.rec motive (fun items => ∀ v ∈ items, motive v) (fun members => ∀ e ∈ members, motive e.2)
    (fun e => motive e.2) absent vacant null bool number string array record foreign
    (fun _ h => absurd h List.not_mem_nil)
    (fun _ _ hv hrest => List.forall_mem_cons.mpr ⟨hv, hrest⟩)
    (fun _ h => absurd h List.not_mem_nil)
    (fun _ _ he hrest => List.forall_mem_cons.mpr ⟨he, hrest⟩) (fun _ _ hv => hv) v

/-! ### Equality of content -/

theorem present?_of_isDocument {v : Value} (h : v.isDocument = true) : v.present? = some v := by
  cases v <;> simp [isDocument, present?] at h ⊢

/-- Nothing foreign at any depth, no key twice in a record and no content of its own in one; the
records need not be ordinary ones. -/
inductive IsData : Value → Prop
  | null : IsData null
  | bool (b : Bool) : IsData (bool b)
  | number (n : Number) : IsData (number n)
  | string (s : String) : IsData (string s)
  | array {items : List Value} : (∀ v ∈ items, IsData v) → IsData (array items)
  | record {kind : RecordKind} {members : Fields Value} : kind.comparedByContent = false →
    Fields.Distinct members → (∀ e ∈ members, IsData e.2) → IsData (record kind members)

theorem sameItems_self {items : List Value} (h : ∀ v ∈ items, v.same v = true) :
    sameItems items items = true := by
  induction items with
  | nil => rfl
  | cons v rest ih =>
    obtain ⟨hv, hrest⟩ := List.forall_mem_cons.mp h
    simp [sameItems, hv, ih hrest]

theorem sameMembers_of_get? {members other : Fields Value}
    (h : ∀ e ∈ members, e.2.same e.2 = true)
    (hg : ∀ e ∈ members, Fields.get? other e.1 = some e.2) : sameMembers members other = true := by
  induction members with
  | nil => rfl
  | cons e rest ih =>
    obtain ⟨he, hrest⟩ := List.forall_mem_cons.mp h
    obtain ⟨hge, hgrest⟩ := List.forall_mem_cons.mp hg
    simp [sameMembers, hge, he, ih hrest hgrest]

/-- **Data has the content of itself.** -/
theorem IsData.same_self {v : Value} (h : v.IsData) : v.same v = true := by
  induction h with
  | null => rfl
  | bool b => simp [same]
  | number n => simp [same]
  | string s => simp [same]
  | array _ ih => rw [same, sameItems_self ih]
  | record _ hd _ ih => simp [same, sameMembers_of_get? ih fun e he => Fields.get?_of_mem hd he]

/-! ### What documents are made of -/

theorem areDocuments_iff {items : List Value} :
    areDocuments items = true ↔ ∀ v ∈ items, v.isDocument = true := by
  induction items with
  | nil => simp [areDocuments]
  | cons v rest ih => simp [areDocuments, ih]

theorem membersAreDocuments_iff {members : Fields Value} :
    membersAreDocuments members = true ↔ ∀ e ∈ members, e.2.isDocument = true := by
  induction members with
  | nil => simp [membersAreDocuments]
  | cons e rest ih => simp [membersAreDocuments, ih]

theorem isDocument_array {items : List Value} :
    (array items).isDocument = true ↔ ∀ v ∈ items, v.isDocument = true := by
  rw [← areDocuments_iff, isDocument]

theorem isDocument_record {kind : RecordKind} {members : Fields Value} :
    (record kind members).isDocument = true ↔
      kind = .plain ∧ Fields.Distinct members ∧ ∀ e ∈ members, e.2.isDocument = true := by
  rw [← membersAreDocuments_iff]
  cases kind <;> simp [isDocument]

theorem isData_of_isDocument {v : Value} (h : v.isDocument = true) : v.IsData := by
  induction v using nodeInduction with
  | absent => cases h
  | vacant => cases h
  | null => exact .null
  | bool b => exact .bool b
  | number n => exact .number n
  | string s => exact .string s
  | array items ih => exact .array fun v hv => ih v hv (isDocument_array.mp h v hv)
  | record kind members ih =>
    obtain ⟨rfl, hd, hm⟩ := isDocument_record.mp h
    exact .record rfl hd fun e he => ih e he (hm e he)
  | foreign f => cases h

/-- **A document has the content of itself.** -/
theorem same_refl {v : Value} (h : v.isDocument = true) : v.same v = true :=
  (isData_of_isDocument h).same_self

theorem isDocument_of_child? {v child : Value} {segment : String} (hv : v.isDocument = true)
    (h : v.child? segment = some child) : child.isDocument = true := by
  rcases container_of_child? h with ⟨items, n, rfl, -, hn⟩ | ⟨kind, members, rfl, -, hm⟩
  · exact isDocument_array.mp hv child (List.mem_of_getElem? hn)
  · exact (isDocument_record.mp hv).2.2 (segment, child) (Fields.mem_of_get? hm)

/-- **What is found in a document is a document.** -/
theorem isDocument_of_at? {v value : Value} {path : Path} (hv : v.isDocument = true)
    (h : v.at? path = some value) : value.isDocument = true := by
  induction path generalizing v with
  | nil =>
    obtain rfl : v = value := by simpa using h
    exact hv
  | cons segment rest ih =>
    obtain ⟨child, hc, hr⟩ := at?_cons_eq_some_iff.mp h
    exact ih (isDocument_of_child? hv hc) hr

/-! ### Writing data -/

theorem isData_array {items : List Value} : (array items).IsData ↔ ∀ v ∈ items, v.IsData :=
  ⟨fun | .array h => h, .array⟩

theorem isData_record {kind : RecordKind} {members : Fields Value} :
    (record kind members).IsData ↔ kind.comparedByContent = false ∧ Fields.Distinct members ∧
      ∀ e ∈ members, e.2.IsData :=
  ⟨fun | .record hk hd hm => ⟨hk, hd, hm⟩, fun h => .record h.1 h.2.1 h.2.2⟩

theorem isData_of_child? {v child : Value} {segment : String} (hv : v.IsData)
    (h : v.child? segment = some child) : child.IsData := by
  rcases container_of_child? h with ⟨items, n, rfl, -, hn⟩ | ⟨kind, members, rfl, -, hm⟩
  · exact isData_array.mp hv child (List.mem_of_getElem? hn)
  · exact (isData_record.mp hv).2.2 (segment, child) (Fields.mem_of_get? hm)

theorem isData_of_at? {v value : Value} {path : Path} (hv : v.IsData) (h : v.at? path = some value) :
    value.IsData := by
  induction path generalizing v with
  | nil =>
    obtain rfl : v = value := by simpa using h
    exact hv
  | cons segment rest ih =>
    obtain ⟨child, hc, hr⟩ := at?_cons_eq_some_iff.mp h
    exact ih (isData_of_child? hv hc) hr

theorem isData_insert {kind : RecordKind} {members : Fields Value} {new : Value}
    (hv : (record kind members).IsData) (hn : new.IsData) (key : String) :
    (record kind (Fields.insert members key new)).IsData := by
  obtain ⟨hk, hd, hm⟩ := isData_record.mp hv
  refine .record hk (Fields.distinct_insert hd key new) fun e he => ?_
  rcases Fields.mem_insert he with rfl | he
  · exact hn
  · exact hm e he

theorem comparedByContent_of_heirKind? {v : Value} {kind : RecordKind}
    (h : v.heirKind? = some kind) : kind.comparedByContent = false := by
  cases v with
  | null => cases h; rfl
  | array items => cases h; rfl
  | record outer members =>
    cases h
    cases outer <;> rfl
  | foreign f => cases f <;> cases h; rfl
  | _ => cases h

/-- A record of data stays one when data is assigned to it, also if that becomes its prototype. -/
theorem isData_assign {kind : RecordKind} {members : Fields Value} {new : Value}
    (hv : (record kind members).IsData) (hn : new.IsData) (key : String) :
    (assign kind members key new).IsData := by
  cases ha : (record kind members).adopts key with
  | true =>
    obtain ⟨hk, hd, hm⟩ := isData_record.mp hv
    rw [assign_of_adopts ha]
    refine .record ?_ hd hm
    cases hh : new.heirKind? with
    | none => exact hk
    | some other => exact comparedByContent_of_heirKind? hh
  | false =>
    rw [assign_of_not_adopts ha]
    exact isData_insert hv hn key

theorem isData_putChild {v child new : Value} {segment : String} (hv : v.IsData)
    (hc : v.child? segment = some child) (hn : new.IsData) : (v.putChild segment new).IsData := by
  rcases container_of_child? hc with ⟨items, n, rfl, hs, -⟩ | ⟨kind, members, rfl, -, -⟩
  · simp only [putChild, hs]
    refine .array fun x hx => ?_
    rcases List.mem_or_eq_of_mem_set hx with hx | rfl
    · exact isData_array.mp hv x hx
    · exact hn
  · exact isData_insert hv hn segment

theorem isData_put {v new after : Value} {segment : String} (hv : v.IsData) (hn : new.IsData)
    (h : v.put segment new = some after) : after.IsData := by
  rcases put_cases h with ⟨child, hc, rfl, -⟩ | ⟨items, rfl, -, rfl, -⟩ |
    ⟨kind, members, rfl, -, -, rfl, -⟩
  · exact isData_putChild hv hc hn
  · refine .array fun x hx => ?_
    rcases List.mem_append.mp hx with hx | hx
    · exact isData_array.mp hv x hx
    · rw [List.mem_singleton.mp hx]
      exact hn
  · exact isData_assign hv hn segment

/-- **Data stays data when data is put at a place of it.** -/
theorem isData_putAt {v new : Value} (hv : v.IsData) (hn : new.IsData) (path : Path) :
    (v.putAt path new).IsData := by
  induction path generalizing v with
  | nil => rwa [putAt_nil]
  | cons segment rest ih =>
    cases hc : v.child? segment with
    | none => rwa [putAt_of_child?_none hc]
    | some child =>
      rw [putAt_cons hc]
      exact isData_putChild hv hc (ih (isData_of_child? hv hc))

end Value

end Manifest
