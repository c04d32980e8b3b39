import Manifest.Proofs.Undoing
import Manifest.Value.Identity
import Mathlib.Data.List.Nodup

/-!
# Independent operations

An operation that has no source changes one place of the document and looks at nothing else
(`Operation.Edits`): an addition and a removal change the container above their place, a replacement
and a test what stands there.  Seen from a record further up, the operation changes the entry under
the key through which its place is reached, and what it does to that entry depends on the entry
alone; only under `prototypeKey` it can also depend on the kind of the record, and change that
(`exists_edits_changeEntry`).

The main statement is `applyAll_comm`: two operations whose places part at two keys of a record can
be applied in either order, with the same success and the same content.
-/

namespace Manifest

namespace Fields

variable {α : Type} {m n : Fields α}

/-- Writes an entry, or removes it. -/
def assign (m : Fields α) (key : String) : Option α → Fields α
  | some v => insert m key v
  | none => erase m key

@[simp] theorem get?_assign_self (m : Fields α) (key : String) (new : Option α) :
    get? (assign m key new) key = new := by
  cases new <;> simp [assign]

theorem get?_assign_of_ne (m : Fields α) {key other : String} (new : Option α)
    (h : other ≠ key) : get? (assign m key new) other = get? m other := by
  cases new with
  | some v => exact get?_insert_of_ne m v h
  | none => exact get?_erase_of_ne m h

theorem distinct_assign (hm : Distinct m) (key : String) (new : Option α) :
    Distinct (assign m key new) := by
  cases new with
  | some v => exact distinct_insert hm key v
  | none => exact hm.sublist (List.filter_sublist.map Prod.fst)

theorem perm_of_get? (hm : Distinct m) (hn : Distinct n)
    (h : ∀ key, get? m key = get? n key) : m.Perm n := by
  refine (List.perm_ext_iff_of_nodup (List.Nodup.of_map _ hm) (List.Nodup.of_map _ hn)).mpr
    fun e => ⟨fun he => ?_, fun he => ?_⟩
  · exact mem_of_get? ((h e.1).symm.trans (get?_of_mem hm he))
  · exact mem_of_get? ((h e.1).trans (get?_of_mem hn he))

theorem assign_comm (hm : Distinct m) {key other : String} (h : key ≠ other) (x y : Option α) :
    (assign (assign m key x) other y).Perm (assign (assign m other y) key x) := by
  refine perm_of_get? (distinct_assign (distinct_assign hm _ _) _ _)
    (distinct_assign (distinct_assign hm _ _) _ _) fun k => ?_
  by_cases hk : k = key
  · subst hk
    rw [get?_assign_of_ne _ _ h, get?_assign_self, get?_assign_self]
  · rw [get?_assign_of_ne _ x hk]
    by_cases ho : k = other
    · subst ho
      rw [get?_assign_self, get?_assign_self]
    · rw [get?_assign_of_ne _ y ho, get?_assign_of_ne _ y ho, get?_assign_of_ne _ x hk]

end Fields

namespace Value

/-! ### Changing one place -/

/-- The document with what stands at a path changed, if it is there and can be changed. -/
def modify? (v : Value) (path : Path) (edit : Value → Option Value) : Option Value :=
  (v.at? path).bind fun old => (edit old).map (v.putAt path)

/-- A change of an entry of a record: from the kind of the record and what is there, or nothing, to
the kind that the record is to have and what is to be there, or nothing. -/
abbrev EntryChange := RecordKind → Option Value → Option (RecordKind × Option Value)

/-- The kind of the record stays, and does not matter to what becomes of the entry. -/
def EntryChange.ofEntry (change : Option Value → Option (Option Value)) : EntryChange :=
  fun kind old => (change old).map fun new => (kind, new)

/-- The record with the entry under a key changed. -/
def changeEntry (key : String) (change : EntryChange) : Value → Option Value
  | record kind members =>
    (change kind (Fields.get? members key)).map fun e =>
      record e.1 (Fields.assign members key e.2)
  | _ => none

section Modify
variable {v left : Value} {p : Path} {edit : Value → Option Value}

theorem modify?_eq_some_iff : v.modify? p edit = some left ↔
    ∃ old new, v.at? p = some old ∧ edit old = some new ∧ left = v.putAt p new := by
  simp only [modify?, Option.bind_eq_some_iff, Option.map_eq_some_iff]
  constructor
  · rintro ⟨old, ho, new, hn, rfl⟩
    exact ⟨old, new, ho, hn, rfl⟩
  · rintro ⟨old, new, ho, hn, rfl⟩
    exact ⟨old, ho, new, hn, rfl⟩

theorem modify?_nil (v : Value) (edit : Value → Option Value) : v.modify? [] edit = edit v := by
  cases h : edit v <;> simp [modify?, h]

theorem modify?_cons (v : Value) (segment : String) (rest : Path) (edit : Value → Option Value) :
    v.modify? (segment :: rest) edit = (v.child? segment).bind fun child =>
      (child.modify? rest edit).map (v.putChild segment) := by
  cases hc : v.child? segment with
  | none => simp [modify?, at?_cons, hc]
  | some child =>
    rw [modify?, at?_cons, hc, Option.bind_some, Option.bind_some, modify?]
    cases child.at? rest with
    | none => rfl
    | some old =>
      rw [Option.bind_some, Option.bind_some, Option.map_map]
      exact congrArg (fun f => (edit old).map f) (funext fun new => putAt_cons hc rest new)

theorem modify?_append (v : Value) (p q : Path) (edit : Value → Option Value) :
    v.modify? (p ++ q) edit = v.modify? p fun child => child.modify? q edit := by
  induction p generalizing v with
  | nil => rw [List.nil_append, modify?_nil]
  | cons segment rest ih => simp only [List.cons_append, modify?_cons, ih]

/-- Of two changes at a place the second goes on from what the first has left. -/
theorem modify?_bind (v : Value) (p : Path) (first second : Value → Option Value) :
    (v.modify? p first).bind (fun w => w.modify? p second) =
      v.modify? p fun old => (first old).bind second := by
  cases ha : v.at? p with
  | none => simp [modify?, ha]
  | some old =>
    simp only [modify?, ha, Option.bind_some]
    cases hf : first old with
    | none => rfl
    | some middle =>
      rw [Option.map_some, Option.bind_some, Option.bind_some, at?_putAt ha, Option.bind_some]
      exact congrArg (fun f => (second middle).map f) (funext fun new => putAt_putAt ha middle new)

theorem modify?_cons_key {key : String} (hk : Role.ofSegment key = .key) (v : Value) (rest : Path)
    (edit : Value → Option Value) :
    v.modify? (key :: rest) edit = v.changeEntry key (.ofEntry fun old =>
      (old.bind fun child => child.modify? rest edit).map some) := by
  rw [modify?_cons]
  cases v with
  | record kind members =>
    rw [child?_record_of_key hk, changeEntry]
    cases Fields.get? members key with
    | none => rfl
    | some child =>
      simp only [EntryChange.ofEntry, Option.bind_some, Option.map_map]
      rfl
  | array items => simp [child?, hk, changeEntry]
  | _ => rfl

theorem isData_modify? (hv : v.IsData)
    (hedit : ∀ old new, old.IsData → edit old = some new → new.IsData)
    (h : v.modify? p edit = some left) : left.IsData := by
  obtain ⟨old, new, ho, hn, rfl⟩ := modify?_eq_some_iff.mp h
  exact isData_putAt hv (hedit old new (isData_of_at? hv ho) hn) p

end Modify

theorem changeEntry_record (key : String) (change : EntryChange) (kind : RecordKind)
    (members : Fields Value) :
    (record kind members).changeEntry key change =
      (change kind (Fields.get? members key)).map fun e =>
        record e.1 (Fields.assign members key e.2) := rfl

theorem EntryChange.swap {f g : EntryChange}
    (h : (∃ c, f = .ofEntry c) ∨ ∃ c, g = .ofEntry c) {kind middle last : RecordKind}
    {old other x y : Option Value} (hf : f kind old = some (middle, x))
    (hg : g middle other = some (last, y)) :
    ∃ between, g kind other = some (between, y) ∧ f between old = some (last, x) := by
  rcases h with ⟨c, rfl⟩ | ⟨c, rfl⟩
  · obtain ⟨_, hx, hk⟩ := Option.map_eq_some_iff.mp hf
    cases hk
    exact ⟨last, hg, by rw [ofEntry, hx, Option.map_some]⟩
  · obtain ⟨_, hy, hk⟩ := Option.map_eq_some_iff.mp hg
    cases hk
    exact ⟨kind, by rw [ofEntry, hy, Option.map_some], hf⟩

/-- **Entries under two keys can be changed in either order** if one of the changes leaves the kind
of the record out: if the second goes through after the first, then the first does after the second,
and the members are the same but for their order. -/
theorem changeEntry_comm {key other : String} (h : key ≠ other) {f g : EntryChange}
    (hfg : (∃ c, f = .ofEntry c) ∨ ∃ c, g = .ofEntry c) {v left : Value} (hv : v.IsData)
    (hl : (v.changeEntry key f).bind (changeEntry other g) = some left) :
    ∃ kind members others, left = record kind members ∧
      (v.changeEntry other g).bind (changeEntry key f) = some (record kind others) ∧
      members.Perm others := by
  obtain ⟨middle, hm, hl⟩ := Option.bind_eq_some_iff.mp hl
  cases v with
  | record kind members =>
    obtain ⟨-, hd, -⟩ := isData_record.mp hv
    obtain ⟨⟨inner, x⟩, hx, rfl⟩ := Option.map_eq_some_iff.mp hm
    obtain ⟨⟨last, y⟩, hy, rfl⟩ := Option.map_eq_some_iff.mp hl
    rw [Fields.get?_assign_of_ne _ _ h.symm] at hy
    obtain ⟨between, hy', hx'⟩ := EntryChange.swap hfg hx hy
    refine ⟨last, _, Fields.assign (Fields.assign members other y) key x, rfl, ?_,
      Fields.assign_comm hd h x y⟩
    rw [changeEntry_record, hy', Option.map_some, Option.bind_some, changeEntry_record,
      Fields.get?_assign_of_ne _ _ h, hx', Option.map_some]
  | _ => cases hm

end Value

namespace Operation

open Value Patch

/-- The pointer to the place that an operation takes its value from. -/
def source? : Operation → Option String
  | copy source _ => some source
  | move source _ => some source
  | _ => none

/-- The value that an operation carries. -/
def value? : Operation → Option Value
  | add _ value => some value
  | replace _ value => some value
  | test _ value => some value
  | _ => none

/-- All that an operation does is to change what stands at one place, and it makes data of data. -/
structure Edits (op : Operation) (place : Path) (edit : Value → Option Value) : Prop where
  apply_iff : ∀ target left,
    op.apply target = (.ok (), left) ↔ target.modify? place edit = some left
  data : ∀ old new, old.IsData → edit old = some new → new.IsData

section Edits
variable {pointer key : String} {value : Value} {p rest : Path} {segment : String}

theorem edits_add (h : Path.ofPointer pointer = p ++ [segment]) (hv : value.isDocument = true) :
    Edits (add pointer value) p fun container =>
      (addTo container (p ++ [segment]) segment value).toOption where
  apply_iff := by
    intro target left
    rw [apply_add_eq_ok_iff h, modify?_eq_some_iff]
    simp only [toOption_eq_some_iff]
  data := by
    intro container new hc hn
    have hvd := isData_of_isDocument hv
    rw [toOption_eq_some_iff] at hn
    rcases addTo_cases hn with ⟨items, rfl, -, rfl⟩ | ⟨items, n, rfl, -, hle, rfl⟩ |
      ⟨kind, members, rfl, rfl⟩
    · refine .array fun x hx => ?_
      rcases List.mem_append.mp hx with hx | hx
      · exact isData_array.mp hc x hx
      · rwa [List.mem_singleton.mp hx]
    · refine .array fun x hx => ?_
      rcases (List.mem_insertIdx hle).mp hx with rfl | hx
      · exact hvd
      · exact isData_array.mp hc x hx
    · exact isData_assign hc hvd segment

theorem edits_remove (h : Path.ofPointer pointer = p ++ [segment]) :
    Edits (remove pointer) p fun container =>
      ((container.child? segment).bind present?).map fun _ => container.dropChild segment where
  apply_iff := by
    intro target left
    rw [apply_remove_eq_ok_iff h, modify?_eq_some_iff]
    constructor
    · rintro ⟨container, value, hp, hc, hv, rfl⟩
      exact ⟨container, _, hp, by rw [hc, Option.bind_some, hv, Option.map_some], rfl⟩
    · rintro ⟨container, new, hp, hn, rfl⟩
      obtain ⟨_, hb, rfl⟩ := Option.map_eq_some_iff.mp hn
      obtain ⟨value, hc, hv⟩ := Option.bind_eq_some_iff.mp hb
      obtain ⟨rfl, -, -⟩ := present?_eq_some_iff.mp hv
      exact ⟨container, value, hp, hc, hv, rfl⟩
  data := by
    intro container new hd hn
    obtain ⟨_, hb, rfl⟩ := Option.map_eq_some_iff.mp hn
    obtain ⟨value, hc, -⟩ := Option.bind_eq_some_iff.mp hb
    rcases container_of_child? hc with ⟨items, n, rfl, hs, -⟩ | ⟨kind, members, rfl, -, -⟩
    · simp only [dropChild, hs]
      exact .array fun x hx => isData_array.mp hd x (List.mem_of_mem_eraseIdx hx)
    · obtain ⟨hk, hdist, hm⟩ := isData_record.mp hd
      exact .record hk (Fields.distinct_assign hdist segment none)
        fun e he => hm e (List.mem_of_mem_filter he)

theorem edits_replace (h : Path.ofPointer pointer ≠ []) (hv : value.isDocument = true) :
    Edits (replace pointer value) (Path.ofPointer pointer) fun old =>
      old.present?.map fun _ => value where
  apply_iff := by
    intro target left
    obtain ⟨p, segment, hp⟩ := (List.eq_nil_or_concat' (Path.ofPointer pointer)).resolve_left h
    rw [apply_replace_eq_ok_iff hp (present?_of_isDocument hv), modify?_eq_some_iff, hp]
    constructor
    · rintro ⟨old, ha, ho, rfl⟩
      exact ⟨old, value, ha, by rw [ho, Option.map_some], rfl⟩
    · rintro ⟨old, new, ha, hn, rfl⟩
      obtain ⟨found, ho, rfl⟩ := Option.map_eq_some_iff.mp hn
      obtain ⟨rfl, -, -⟩ := present?_eq_some_iff.mp ho
      exact ⟨old, ha, ho, rfl⟩
  data := by
    intro old new _ hn
    obtain ⟨_, -, rfl⟩ := Option.map_eq_some_iff.mp hn
    exact isData_of_isDocument hv

theorem edits_test (pointer : String) (value : Value) :
    Edits (test pointer value) (Path.ofPointer pointer) fun old =>
      old.present?.filter fun found => found.same value where
  apply_iff := by
    intro target left
    rw [apply_test_eq_ok_iff, modify?_eq_some_iff]
    constructor
    · rintro ⟨found, ha, hf, hs, rfl⟩
      exact ⟨found, found, ha, Option.filter_eq_some_iff.mpr ⟨hf, hs⟩, (putAt_of_at? ha).symm⟩
    · rintro ⟨old, found, ha, hn, rfl⟩
      obtain ⟨hf, hs⟩ := Option.filter_eq_some_iff.mp hn
      obtain ⟨rfl, -, -⟩ := present?_eq_some_iff.mp hf
      exact ⟨old, ha, hf, hs, putAt_of_at? ha⟩
  data := by
    intro old new hd hn
    obtain ⟨hn, -⟩ := Option.filter_eq_some_iff.mp hn
    obtain ⟨rfl, -, -⟩ := present?_eq_some_iff.mp hn
    exact hd

end Edits

/-! ### Changes of an entry -/

section Entry
variable {op : Operation} {key : String} {p rest : Path}

theorem Edits.isData_left {edit : Value → Option Value} (h : Edits op p edit)
    {target left : Value} (ht : target.IsData) (hok : op.apply target = (.ok (), left)) :
    left.IsData :=
  isData_modify? ht h.data ((h.apply_iff target left).mp hok)

theorem Edits.above {edit : Value → Option Value} (h : Edits op (p ++ key :: rest) edit)
    (hk : Role.ofSegment key = .key) : ∃ change, Edits op p (changeEntry key (.ofEntry change)) := by
  refine ⟨fun old => (old.bind fun child => child.modify? rest edit).map some,
    fun target left => ?_, fun container new hd hn => ?_⟩
  · rw [h.apply_iff, modify?_append]
    simp only [modify?_cons_key hk]
  · rw [← modify?_cons_key hk] at hn
    exact isData_modify? hd h.data hn

theorem toOption_addTo_of_key (hk : Role.ofSegment key = .key) (container value : Value)
    (path : Path) :
    (addTo container path key value).toOption = container.changeEntry key fun kind old =>
      if key = prototypeKey ∧ kind.takesPrototype = true ∧ old = none then
        some (value.heirKind?.getD kind, none)
      else some (kind, some value) := by
  cases container with
  | array items => simp [addTo, hk, changeEntry, Except.toOption]
  | record kind members =>
    rw [changeEntry_record]
    split
    · next h =>
      have hkeep : Fields.assign members key none = members := Fields.erase_of_get?_none h.2.2
      rw [addTo, assign_of_adopts (adopts_record_iff.mpr h), Option.map_some, hkeep]
      rfl
    · next h =>
      have ha : (record kind members).adopts key = false :=
        Bool.eq_false_iff.mpr (mt adopts_record_iff.mp h)
      rw [addTo, assign_of_not_adopts ha]
      rfl
  | _ => rfl

theorem map_dropChild_of_key (hk : Role.ofSegment key = .key) (container : Value) :
    (((container.child? key).bind present?).map fun _ => container.dropChild key) =
      container.changeEntry key (.ofEntry fun old => (old.bind present?).map fun _ => none) := by
  cases container with
  | record kind members =>
    rw [child?_record_of_key hk, changeEntry_record, EntryChange.ofEntry, Option.map_map,
      Option.map_map]
    rfl
  | array items => simp [child?, hk, changeEntry]
  | _ => rfl

/-- **An operation without a source changes one entry of each record on its way**, and looks at
nothing but that entry, unless it is the one in the place of the prototype. -/
theorem exists_edits_changeEntry (hs : op.source? = none)
    (hv : ∀ value, op.value? = some value → value.isDocument = true)
    (hp : Path.ofPointer op.path = p ++ key :: rest) (hk : Role.ofSegment key = .key) :
    ∃ change, Edits op p (changeEntry key change) ∧
      (key ≠ prototypeKey → ∃ c, change = .ofEntry c) := by
  have habove : ∀ {edit inner}, Edits op (p ++ key :: inner) edit →
      ∃ change, Edits op p (changeEntry key change) ∧
        (key ≠ prototypeKey → ∃ c, change = .ofEntry c) := by
    intro edit inner h
    obtain ⟨c, hc⟩ := h.above hk
    exact ⟨_, hc, fun _ => ⟨c, rfl⟩⟩
  -- an addition or a removal right under the key changes the record itself
  have hlast : rest = [] ∨ ∃ inner segment,
      p ++ key :: rest = (p ++ key :: inner) ++ [segment] := by
    rcases List.eq_nil_or_concat' rest with hr | ⟨inner, segment, rfl⟩
    · exact Or.inl hr
    · exact Or.inr ⟨inner, segment, by simp⟩
  cases op with
  | add pointer value =>
    rcases hlast with rfl | ⟨inner, segment, hi⟩
    · have h := edits_add hp (hv value rfl)
      simp only [toOption_addTo_of_key hk] at h
      refine ⟨_, h, fun hne => ⟨fun _ => some (some value), ?_⟩⟩
      funext kind old
      rw [if_neg fun hpk => hne hpk.1]
      rfl
    · exact habove (edits_add (hp.trans hi) (hv value rfl))
  | remove pointer =>
    rcases hlast with rfl | ⟨inner, segment, hi⟩
    · have h := edits_remove hp
      simp only [map_dropChild_of_key hk] at h
      exact ⟨_, h, fun _ => ⟨_, rfl⟩⟩
    · exact habove (edits_remove (hp.trans hi))
  | replace pointer value =>
    have hread : Path.ofPointer pointer = p ++ key :: rest := hp
    have h := edits_replace (by rw [hread]; simp) (hv value rfl)
    rw [hread] at h
    exact habove h
  | test pointer value =>
    have hread : Path.ofPointer pointer = p ++ key :: rest := hp
    have h := edits_test pointer value
    rw [hread] at h
    exact habove h
  | copy source path => cases hs
  | move source path => cases hs

end Entry

/-! ### Two operations -/

section Two
variable {a b : Operation} {target left : Value} {p : Path}

theorem applyAll_pair_eq_ok_iff {first second : Value → Option Value} (ha : Edits a p first)
    (hb : Edits b p second) :
    applyAll [a, b] target = (.ok (), left) ↔
      target.modify? p (fun old => (first old).bind second) = some left := by
  rw [applyAll_cons_eq_ok_iff, ← modify?_bind, Option.bind_eq_some_iff]
  simp only [applyAll_singleton_eq_ok_iff, ha.apply_iff, hb.apply_iff]

theorem exists_applyAll_swapped {key other : String} (h : key ≠ other) {f g : EntryChange}
    (hfg : (∃ c, f = .ofEntry c) ∨ ∃ c, g = .ofEntry c) (ha : Edits a p (changeEntry key f))
    (hb : Edits b p (changeEntry other g)) (ht : target.IsData)
    (hok : applyAll [a, b] target = (.ok (), left)) :
    ∃ left', applyAll [b, a] target = (.ok (), left') ∧ left.same left' = true := by
  rw [applyAll_pair_eq_ok_iff ha hb] at hok
  obtain ⟨old, new, hp, hn, rfl⟩ := modify?_eq_some_iff.mp hok
  obtain ⟨kind, members, others, rfl, hswap, hperm⟩ :=
    changeEntry_comm h hfg (isData_of_at? ht hp) hn
  have hok' : applyAll [b, a] target = (.ok (), target.putAt p (record kind others)) :=
    (applyAll_pair_eq_ok_iff hb ha).mpr
      (modify?_eq_some_iff.mpr ⟨old, _, hp, hswap, rfl⟩)
  obtain ⟨middle, hmid, hlast⟩ := applyAll_cons_eq_ok_iff.mp hok'
  have hd : (target.putAt p (record kind others)).IsData :=
    ha.isData_left (hb.isData_left ht hmid) (applyAll_singleton_eq_ok_iff.mp hlast)
  have hat : (target.putAt p (record kind others)).at? p = some (record kind others) :=
    at?_putAt hp _
  refine ⟨_, hok', ?_⟩
  rw [← putAt_putAt hp (record kind others) (record kind members)]
  exact (same_putAt_iff hd hat).mpr (same_of_perm (isData_of_at? hd hat) hperm)

/-- **Independent operations commute**: two operations without a source whose places part at two
keys go through in one order exactly if they do in the other, and then both orders leave the same
content. -/
theorem applyAll_comm (ht : target.isDocument = true) (hsa : a.source? = none)
    (hsb : b.source? = none) (hva : ∀ value, a.value? = some value → value.isDocument = true)
    (hvb : ∀ value, b.value? = some value → value.isDocument = true) {key other : String}
    {rest rest' : Path} (hpa : Path.ofPointer a.path = p ++ key :: rest)
    (hpb : Path.ofPointer b.path = p ++ other :: rest') (hk : Role.ofSegment key = .key)
    (ho : Role.ofSegment other = .key) (h : key ≠ other) :
    ((∃ left, applyAll [a, b] target = (.ok (), left)) ↔
        ∃ left, applyAll [b, a] target = (.ok (), left)) ∧
      ∀ left left', applyAll [a, b] target = (.ok (), left) →
        applyAll [b, a] target = (.ok (), left') → left.same left' = true := by
  obtain ⟨f, hf, hfk⟩ := exists_edits_changeEntry hsa hva hpa hk
  obtain ⟨g, hg, hgk⟩ := exists_edits_changeEntry hsb hvb hpb ho
  have hd : target.IsData := isData_of_isDocument ht
  -- two different keys are not both the one of the prototype
  have hfg : (∃ c, f = .ofEntry c) ∨ ∃ c, g = .ofEntry c := by
    by_cases hkey : key = prototypeKey
    · exact Or.inr (hgk (hkey ▸ h.symm))
    · exact Or.inl (hfk hkey)
  refine ⟨⟨?_, ?_⟩, fun left left' hl hl' => ?_⟩
  · rintro ⟨left, hl⟩
    obtain ⟨left', hl', -⟩ := exists_applyAll_swapped h hfg hf hg hd hl
    exact ⟨left', hl'⟩
  · rintro ⟨left, hl⟩
    obtain ⟨left', hl', -⟩ := exists_applyAll_swapped h.symm hfg.symm hg hf hd hl
    exact ⟨left', hl'⟩
  · obtain ⟨_, hswap, hsame⟩ := exists_applyAll_swapped h hfg hf hg hd hl
    rw [hswap] at hl'
    cases hl'
    exact hsame

/-- Of two new members the one that was added last stands last; the content is the same. -/
theorem applyAll_comm_of_new_members :
    let target := object [("a", array [object [("b", array [string "x"])]])]
    let first := add "/a/0/c" (string "y")
    let second := add "/a/0/d~1" (array [])
    let left := object [("a", array [object [("b", array [string "x"]), ("c", string "y"),
      ("d/", array [])]])]
    let left' := object [("a", array [object [("b", array [string "x"]), ("d/", array []),
      ("c", string "y")]])]
    applyAll [first, second] target = (.ok (), left) ∧
      applyAll [second, first] target = (.ok (), left') ∧ left.same left' = true := by
  intro target first second left left'
  have hl : applyAll [first, second] target = (.ok (), left) := by decide +kernel
  have hl' : applyAll [second, first] target = (.ok (), left') := by decide +kernel
  have hpa : Path.ofPointer first.path = ["a", "0"] ++ ["c"] := by decide +kernel
  have hpb : Path.ofPointer second.path = ["a", "0"] ++ ["d/"] := by decide +kernel
  have hva : ∀ value, first.value? = some value → value.isDocument = true := by
    rintro _ ⟨⟩
    rfl
  have hvb : ∀ value, second.value? = some value → value.isDocument = true := by
    rintro _ ⟨⟩
    rfl
  exact ⟨hl, hl', (applyAll_comm rfl rfl rfl hva hvb hpa hpb (by decide) (by decide)
    (by decide)).2 left left' hl hl'⟩

end Two

end Operation

end Manifest
