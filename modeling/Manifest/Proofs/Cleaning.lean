import Manifest.Cleaner
import Manifest.Proofs.Sameness
import Manifest.Value.Identity
import Mathlib.Data.List.Nodup

/-!
# What a cleaner removes

A cleaner stands for a set of places, each of them a sequence of keys from the root downwards
(`Cleaner.locations`).  `Value.without` is the document without the members at given places; it goes
through records only and keeps everything else.  What it takes away and what it keeps is seen by
looking members up: `memberAt?_without_of_mem`, `memberAt?_without_of_apart`.

Cleaning removes members one after the other.  Every one of its steps is a `without`, and two of
them are one (`without_without`), so that all of them together remove the places of the cleaner.
The main statement is `clean_eq_without`.
-/

namespace Manifest

namespace Value

/-! ### Places below a key -/

/-- The places below a key, seen from there. -/
def placesBelow (key : String) (gone : List (List String)) : List (List String) :=
  gone.filterMap fun
    | [] => none
    | k :: rest => if k = key then some rest else none

theorem mem_placesBelow {key : String} {gone : List (List String)} {place : List String} :
    place ∈ placesBelow key gone ↔ key :: place ∈ gone := by
  rw [placesBelow, List.mem_filterMap]
  constructor
  · rintro ⟨_ | ⟨k, rest⟩, hg, h⟩
    · cases h
    · obtain ⟨rfl, rfl⟩ : k = key ∧ rest = place := by simpa using h
      exact hg
  · intro hg
    exact ⟨key :: place, hg, by simp⟩

@[simp] theorem placesBelow_nil (key : String) : placesBelow key [] = [] := rfl

theorem placesBelow_append (key : String) (a b : List (List String)) :
    placesBelow key (a ++ b) = placesBelow key a ++ placesBelow key b :=
  List.filterMap_append

theorem placesBelow_map_cons (key : String) (places : List (List String)) :
    placesBelow key (places.map (key :: ·)) = places := by
  simp [placesBelow, List.filterMap_map]

theorem placesBelow_map_cons_of_ne {key other : String} (h : key ≠ other)
    (places : List (List String)) : placesBelow other (places.map (key :: ·)) = [] := by
  simp [placesBelow, List.filterMap_map, h]

/-! ### Leaving members out -/

mutual

/-- The document without the members at the given places, as far as they are reached through
records. -/
def without (gone : List (List String)) : Value → Value
  | record kind members => record kind (membersWithout gone members)
  | v => v

/-- The members without those at the given places. -/
def membersWithout (gone : List (List String)) : List (String × Value) → List (String × Value)
  | [] => []
  | (key, v) :: rest =>
    if [key] ∈ gone then membersWithout gone rest
    else (key, without (placesBelow key gone) v) :: membersWithout gone rest

end

theorem without_record (gone : List (List String)) (kind : RecordKind) (members : Fields Value) :
    (record kind members).without gone = record kind (membersWithout gone members) := by
  rw [without]

theorem without_of_members?_none {v : Value} (h : v.members? = none) (gone : List (List String)) :
    v.without gone = v := by
  cases v with
  | record kind members => cases h
  | _ => simp only [without]

theorem membersWithout_cons_of_mem {gone : List (List String)} {key : String} (h : [key] ∈ gone)
    (v : Value) (rest : Fields Value) :
    membersWithout gone ((key, v) :: rest) = membersWithout gone rest := by
  rw [membersWithout, if_pos h]

theorem membersWithout_cons_of_notMem {gone : List (List String)} {key : String}
    (h : [key] ∉ gone) (v : Value) (rest : Fields Value) :
    membersWithout gone ((key, v) :: rest) =
      (key, v.without (placesBelow key gone)) :: membersWithout gone rest := by
  rw [membersWithout, if_neg h]

theorem without_nil (v : Value) : v.without [] = v := by
  induction v using nodeInduction with
  | record kind members ih =>
    rw [without_record]
    congr 1
    induction members with
    | nil => rw [membersWithout]
    | cons e rest ihr =>
      obtain ⟨he, hrest⟩ := List.forall_mem_cons.mp ih
      rw [membersWithout_cons_of_notMem List.not_mem_nil, placesBelow_nil, he, ihr hrest]
  | _ => simp only [without]

theorem membersWithout_nil (m : Fields Value) : membersWithout [] m = m := by
  induction m with
  | nil => rw [membersWithout]
  | cons e rest ih =>
    rw [membersWithout_cons_of_notMem List.not_mem_nil, placesBelow_nil, without_nil, ih]

mutual

/-- **To leave out some places and then others is to leave out all of them.** -/
theorem without_without : ∀ (a b : List (List String)) (v : Value),
    (v.without a).without b = v.without (a ++ b)
  | a, b, record kind members => by
    rw [without_record, without_record, without_record, membersWithout_membersWithout]
  | _, _, absent => by simp only [without]
  | _, _, vacant => by simp only [without]
  | _, _, null => by simp only [without]
  | _, _, bool _ => by simp only [without]
  | _, _, number _ => by simp only [without]
  | _, _, string _ => by simp only [without]
  | _, _, array _ => by simp only [without]
  | _, _, foreign _ => by simp only [without]

theorem membersWithout_membersWithout : ∀ (a b : List (List String)) (m : List (String × Value)),
    membersWithout b (membersWithout a m) = membersWithout (a ++ b) m
  | _, _, [] => by simp only [membersWithout]
  | a, b, (key, v) :: rest => by
    by_cases ha : [key] ∈ a
    · rw [membersWithout_cons_of_mem ha, membersWithout_membersWithout a b rest,
        membersWithout_cons_of_mem (List.mem_append_left b ha)]
    · rw [membersWithout_cons_of_notMem ha]
      by_cases hb : [key] ∈ b
      · rw [membersWithout_cons_of_mem hb, membersWithout_membersWithout a b rest,
          membersWithout_cons_of_mem (List.mem_append_right a hb)]
      · have hab : [key] ∉ a ++ b := fun h => (List.mem_append.mp h).elim ha hb
        rw [membersWithout_cons_of_notMem hb, membersWithout_cons_of_notMem hab, placesBelow_append,
          without_without, membersWithout_membersWithout a b rest]

end

/-! ### What is left -/

theorem get?_membersWithout (gone : List (List String)) (m : Fields Value) (key : String) :
    Fields.get? (membersWithout gone m) key =
      if [key] ∈ gone then none else (Fields.get? m key).map (without (placesBelow key gone)) := by
  induction m with
  | nil => simp [membersWithout]
  | cons e rest ih =>
    obtain ⟨k, v⟩ := e
    rw [Fields.get?_cons]
    by_cases hk : k = key
    · subst hk
      by_cases hg : [k] ∈ gone
      · rw [membersWithout_cons_of_mem hg, ih, if_pos hg, if_pos hg]
      · rw [membersWithout_cons_of_notMem hg, Fields.get?_cons, if_pos rfl, if_neg hg, if_pos rfl]
        rfl
    · rw [if_neg hk, ← ih]
      by_cases hg : [k] ∈ gone
      · rw [membersWithout_cons_of_mem hg]
      · rw [membersWithout_cons_of_notMem hg, Fields.get?_cons, if_neg hk]

theorem keys_membersWithout (gone : List (List String)) (m : Fields Value) :
    Fields.keys (membersWithout gone m) = (Fields.keys m).filter ([·] ∉ gone) := by
  induction m with
  | nil => simp [membersWithout, Fields.keys]
  | cons e rest ih =>
    obtain ⟨k, v⟩ := e
    by_cases hg : [k] ∈ gone
    · rw [membersWithout_cons_of_mem hg, ih]
      simp [Fields.keys, hg]
    · rw [membersWithout_cons_of_notMem hg, Fields.keys, List.map_cons, ← Fields.keys, ih]
      simp [Fields.keys, hg]

theorem isDocument_without {v : Value} (hv : v.isDocument = true) (gone : List (List String)) :
    (v.without gone).isDocument = true := by
  induction v using nodeInduction generalizing gone with
  | record kind members ih =>
    obtain ⟨hk, hd, hm⟩ := isDocument_record.mp hv
    have hdist : Fields.Distinct (membersWithout gone members) := by
      rw [Fields.Distinct, keys_membersWithout]
      exact List.Nodup.filter _ hd
    rw [without_record]
    refine isDocument_record.mpr ⟨hk, hdist, fun e he => ?_⟩
    have hget := Fields.get?_of_mem hdist he
    rw [get?_membersWithout] at hget
    split at hget
    · cases hget
    · obtain ⟨old, ho, hold⟩ := Option.map_eq_some_iff.mp hget
      have hmem := Fields.mem_of_get? ho
      rw [← hold]
      exact ih _ hmem (hm _ hmem) _
  | _ => simpa only [without] using hv

theorem isDocument_membersWithout {m : Fields Value} (hm : (object m).isDocument = true)
    (gone : List (List String)) : (object (membersWithout gone m)).isDocument = true := by
  have h := isDocument_without hm gone
  rwa [object, without_record] at h

/-- The member that a sequence of keys leads to, from record to record. -/
def memberAt? : Value → List String → Option Value
  | v, [] => some v
  | v, key :: rest => (v.member? key).bind fun child => child.memberAt? rest

theorem memberAt?_nil (v : Value) : v.memberAt? [] = some v := by
  cases v <;> rfl

theorem memberAt?_cons (v : Value) (key : String) (rest : List String) :
    v.memberAt? (key :: rest) = (v.member? key).bind fun child => child.memberAt? rest := by
  cases v <;> rfl

theorem member?_without (gone : List (List String)) (v : Value) (key : String) :
    (v.without gone).member? key =
      if [key] ∈ gone then none else (v.member? key).map (without (placesBelow key gone)) := by
  cases v with
  | record kind members =>
    rw [without_record]
    exact get?_membersWithout gone members key
  | _ => simp [without, member?, members?]

section Look
variable {v w : Value} {gone : List (List String)} {q : List String}

/-- **What is at one of the places or below it is gone.** -/
theorem memberAt?_without_of_mem {place : List String} (hp : place ∈ gone) (hne : place ≠ [])
    (hq : place <+: q) : (v.without gone).memberAt? q = none := by
  induction q generalizing v gone place with
  | nil => exact absurd (List.prefix_nil.mp hq) hne
  | cons key rest ih =>
    obtain ⟨k, inner, rfl⟩ := List.exists_cons_of_ne_nil hne
    obtain ⟨rfl, hrest⟩ := List.cons_prefix_cons.mp hq
    rw [memberAt?_cons, member?_without]
    by_cases hg : [k] ∈ gone
    · rw [if_pos hg, Option.bind_none]
    · have hinner : inner ≠ [] := by
        rintro rfl
        exact hg hp
      rw [if_neg hg]
      cases v.member? k with
      | none => rfl
      | some child => exact ih (mem_placesBelow.mpr hp) hinner hrest

/-- **What is apart from all the places stays as it is**; if it is no record, it may also be on the
way to one of them. -/
theorem memberAt?_without_of_apart (hw : v.memberAt? q = some w)
    (hg : ∀ place ∈ gone, ¬ place <+: q)
    (hs : w.members? = none ∨ ∀ place ∈ gone, ¬ q <+: place) :
    (v.without gone).memberAt? q = some w := by
  induction q generalizing v gone with
  | nil =>
    rw [memberAt?_nil, Option.some.injEq] at hw ⊢
    subst hw
    rcases hs with hs | hs
    · exact without_of_members?_none hs gone
    · have hnil : gone = [] :=
        List.eq_nil_iff_forall_not_mem.mpr fun place hp => hs place hp List.nil_prefix
      rw [hnil, without_nil]
  | cons key rest ih =>
    rw [memberAt?_cons] at hw ⊢
    obtain ⟨child, hc, hr⟩ := Option.bind_eq_some_iff.mp hw
    have hk : [key] ∉ gone := fun h => hg _ h (by simp)
    rw [member?_without, if_neg hk, hc, Option.map_some, Option.bind_some]
    refine ih hr (fun place hp hpre => ?_) (hs.imp_right fun hs place hp hpre => ?_)
    · exact hg _ (mem_placesBelow.mp hp) (List.cons_prefix_cons.mpr ⟨rfl, hpre⟩)
    · exact hs _ (mem_placesBelow.mp hp) (List.cons_prefix_cons.mpr ⟨rfl, hpre⟩)

theorem memberAt?_without_of_none (h : v.memberAt? q = none) (gone : List (List String)) :
    (v.without gone).memberAt? q = none := by
  induction q generalizing v gone with
  | nil =>
    rw [memberAt?_nil] at h
    cases h
  | cons key rest ih =>
    rw [memberAt?_cons] at h ⊢
    rw [member?_without]
    split
    · rfl
    · cases hc : v.member? key with
      | none => rfl
      | some child =>
        rw [hc, Option.bind_some] at h
        exact ih h _

end Look

/-! ### One member -/

theorem membersWithout_of_get?_none {m : Fields Value} {key : String}
    (h : Fields.get? m key = none) (places : List (List String)) :
    membersWithout (places.map (key :: ·)) m = m := by
  induction m with
  | nil => rw [membersWithout]
  | cons e rest ih =>
    obtain ⟨k, v⟩ := e
    rw [Fields.get?_cons] at h
    by_cases hk : k = key
    · rw [if_pos hk] at h
      cases h
    · rw [if_neg hk] at h
      have hn : [k] ∉ places.map (key :: ·) := by simp [Ne.symm hk]
      rw [membersWithout_cons_of_notMem hn, placesBelow_map_cons_of_ne (Ne.symm hk), without_nil,
        ih h]

theorem membersWithout_map_cons {m : Fields Value} {key : String} {child : Value}
    (hm : Fields.Distinct m) (h : Fields.get? m key = some child) {places : List (List String)}
    (hp : [] ∉ places) :
    membersWithout (places.map (key :: ·)) m = Fields.insert m key (child.without places) := by
  induction m with
  | nil => cases h
  | cons e rest ih =>
    obtain ⟨k, v⟩ := e
    have hn : [k] ∉ places.map (key :: ·) := by
      intro hmem
      obtain ⟨place, hplace, he⟩ := List.mem_map.mp hmem
      obtain rfl : place = [] := (List.cons.inj he).2
      exact hp hplace
    rw [Fields.get?_cons] at h
    rw [membersWithout_cons_of_notMem hn, Fields.insert]
    by_cases he : k = key
    · subst he
      rw [if_pos rfl, Option.some.injEq] at h
      have hnone := Fields.get?_tail_eq_none hm
      rw [if_pos rfl, placesBelow_map_cons, membersWithout_of_get?_none hnone, h]
    · rw [if_neg he] at h
      rw [if_neg he, placesBelow_map_cons_of_ne (Ne.symm he), without_nil,
        ih (List.nodup_cons.mp hm).2 h]

theorem erase_eq_membersWithout (m : Fields Value) (key : String) :
    Fields.erase m key = membersWithout [[key]] m := by
  induction m with
  | nil => rw [membersWithout]; rfl
  | cons e rest ih =>
    obtain ⟨k, v⟩ := e
    by_cases hk : k = key
    · subst hk
      rw [membersWithout_cons_of_mem (List.mem_singleton_self _), ← ih]
      exact List.filter_cons_of_neg (by simp)
    · have hn : [k] ∉ [[key]] := by simpa using hk
      have hb : placesBelow k [[key]] = [] := placesBelow_map_cons_of_ne (Ne.symm hk) [[]]
      rw [membersWithout_cons_of_notMem hn, hb, without_nil, ← ih]
      exact List.filter_cons_of_pos (by simpa using hk)

end Value

namespace Cleaner

open Value

/-! ### The places of a cleaner -/

mutual

/-- The places that a cleaner describes: its fields, a member whose cleaner describes nothing, and
what the other nested cleaners describe below their members. -/
def locations : Cleaner → List (List String)
  | mk fields nested => fields.map (fun key => [key]) ++ nestedLocations nested

/-- The places that nested cleaners describe. -/
def nestedLocations : List (String × Cleaner) → List (List String)
  | [] => []
  | (key, c) :: rest =>
    (if c.removesWhole then [[key]] else (locations c).map (key :: ·)) ++ nestedLocations rest

end

mutual

theorem nil_notMem_locations : ∀ c : Cleaner, [] ∉ c.locations
  | mk fields nested => by
    rw [locations, List.mem_append, not_or]
    exact ⟨by simp, nil_notMem_nestedLocations nested⟩

theorem nil_notMem_nestedLocations : ∀ nested : List (String × Cleaner),
    [] ∉ nestedLocations nested
  | [] => List.not_mem_nil
  | (key, c) :: rest => by
    rw [nestedLocations, List.mem_append, not_or]
    refine ⟨?_, nil_notMem_nestedLocations rest⟩
    split <;> simp

end

/-! ### Cleaning -/

theorem eraseFields_eq_membersWithout (fields : List String) (m : Fields Value) :
    eraseFields fields m = membersWithout (fields.map fun key => [key]) m := by
  induction fields generalizing m with
  | nil => exact (membersWithout_nil m).symm
  | cons key rest ih =>
    show eraseFields rest (Fields.erase m key) = _
    rw [ih, erase_eq_membersWithout, membersWithout_membersWithout]
    rfl

mutual

/-- **Cleaning a record leaves out the places of the cleaner.** -/
theorem cleanMembers_eq (place : String) : ∀ (c : Cleaner) {m : List (String × Value)},
    (object m).isDocument = true → (cleanMembers place c m).1 = membersWithout c.locations m
  | mk fields nested, m, hm => by
    rw [cleanMembers, eraseFields_eq_membersWithout,
      cleanNested_eq place nested (isDocument_membersWithout hm _), membersWithout_membersWithout,
      locations]

theorem cleanNested_eq (place : String) :
    ∀ (nested : List (String × Cleaner)) {m : List (String × Value)},
      (object m).isDocument = true →
        (cleanNested place nested m).1 = membersWithout (nestedLocations nested) m
  | [], m, _ => by rw [cleanNested, nestedLocations, membersWithout_nil]
  | (key, c) :: rest, m, hm => by
    -- The first entry is one step of its own, and the others go on with what it leaves.
    have hstep : ∀ first, (cleanNested place rest (membersWithout first m)).1 =
        membersWithout (first ++ nestedLocations rest) m := fun first => by
      rw [cleanNested_eq place rest (isDocument_membersWithout hm first),
        membersWithout_membersWithout]
    rw [cleanNested, nestedLocations]
    by_cases hw : c.removesWhole = true
    · rw [if_pos hw, if_pos hw, erase_eq_membersWithout, hstep]
    · rw [if_neg hw, if_neg hw, ← hstep]
      have hd : Fields.Distinct m := (isDocument_record.mp hm).2.1
      cases hg : Fields.get? m key with
      | none => rw [membersWithout_of_get?_none hg]
      | some child =>
        rw [membersWithout_map_cons hd hg (nil_notMem_locations c)]
        cases child with
        | record kind inner =>
          have hi := (isDocument_record.mp hm).2.2 _ (Fields.mem_of_get? hg)
          obtain ⟨rfl, -⟩ := isDocument_record.mp hi
          dsimp only
          rw [cleanMembers_eq _ c hi, without_record]
        | _ =>
          rw [without_of_members?_none rfl, Fields.insert_of_get? hg]

end

/-! ### Members that are not named -/

theorem get?_eraseFields_of_notMem {fields : List String} {key : String} (h : key ∉ fields)
    (m : Fields Value) : Fields.get? (eraseFields fields m) key = Fields.get? m key := by
  induction fields generalizing m with
  | nil => rfl
  | cons first rest ih =>
    obtain ⟨hf, hr⟩ := not_or.mp (mt List.mem_cons.mpr h)
    show Fields.get? (eraseFields rest (Fields.erase m first)) key = _
    rw [ih hr, Fields.get?_erase_of_ne m hf]

theorem get?_cleanNested_of_notMem {nested : List (String × Cleaner)} {key : String}
    (h : key ∉ nested.map Prod.fst) (place : String) (m : Fields Value) :
    Fields.get? (cleanNested place nested m).1 key = Fields.get? m key := by
  induction nested generalizing m with
  | nil => rw [cleanNested]
  | cons e rest ih =>
    obtain ⟨first, c⟩ := e
    obtain ⟨hf, hr⟩ := not_or.mp (mt List.mem_cons.mpr h)
    rw [cleanNested]
    split
    · rw [ih hr, Fields.get?_erase_of_ne m hf]
    · split
      · exact ih hr m
      · exact (ih hr _).trans (Fields.get?_insert_of_ne m _ hf)
      · exact ih hr m

theorem get?_cleanMembers_of_notMem {c : Cleaner} {key : String} (hf : key ∉ c.fields)
    (hn : key ∉ c.nested.map Prod.fst) (place : String) (m : Fields Value) :
    Fields.get? (cleanMembers place c m).1 key = Fields.get? m key := by
  cases c with
  | mk fields nested =>
    rw [cleanMembers]
    exact (get?_cleanNested_of_notMem hn place _).trans (get?_eraseFields_of_notMem hf m)

/-! ### All that is removed -/

/-- **Cleaning removes exactly what the cleaner describes.**  The record becomes the one without the
places of the cleaner: what is at such a place or below it is gone, every other member is as it was,
unless it is a record on the way to such a place, and no member is new. -/
theorem clean_eq_without (c : Cleaner) {members : Fields Value}
    (h : (object members).isDocument = true) :
    let root := object members
    let left := (c.clean root).1
    left = root.without c.locations ∧
      (∀ place ∈ c.locations, ∀ q, place <+: q → left.memberAt? q = none) ∧
      (∀ q v, root.memberAt? q = some v → (∀ place ∈ c.locations, ¬ place <+: q) →
        (v.members? = none ∨ ∀ place ∈ c.locations, ¬ q <+: place) → left.memberAt? q = some v) ∧
      ∀ q, root.memberAt? q = none → left.memberAt? q = none := by
  intro root left
  have hleft : left = root.without c.locations := by
    show (c.clean (object members)).1 = (object members).without c.locations
    rw [clean_record, cleanMembers_eq "" c h, without_record]
  rw [hleft]
  refine ⟨rfl, fun place hp q hq => ?_, fun q v hv hq hs => ?_, fun q hq => ?_⟩
  · have hne : place ≠ [] := by
      rintro rfl
      exact nil_notMem_locations c hp
    exact memberAt?_without_of_mem hp hne hq
  · exact memberAt?_without_of_apart hv hq hs
  · exact memberAt?_without_of_none hq _

/-- A member named twice, one below a removed one, one below an array, and a record emptied. -/
theorem clean_overlapping_entries :
    let c := mk ["a", "none"] [("a", mk ["x"] []), ("b", mk [] []),
      ("c", mk ["y"] [("d", mk ["z"] [("w", mk [] [])])]), ("e", mk ["z"] [])]
    let root := object [("a", object [("x", null)]), ("b", array []),
      ("c", object [("y", null), ("d", object [("z", null), ("w", null)]), ("z", bool true)]),
      ("e", array [object [("z", null)]])]
    root.isDocument = true ∧
      (c.clean root).1 = object [("c", object [("d", object []), ("z", bool true)]),
        ("e", array [object [("z", null)]])] ∧
      (c.clean root).1 = root.without c.locations := by
  intro c root
  have h : root.isDocument = true := by decide +kernel
  exact ⟨h, by decide +kernel, (clean_eq_without c h).1⟩

end Cleaner

end Manifest
