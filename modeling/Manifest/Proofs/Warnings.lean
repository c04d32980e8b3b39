import Manifest.Proofs.Cleaning

/-!
# Runs of cleaners

Two cleaners remove the same places in either order, and a second run of one finds nothing more to
remove: what is left out depends on the set of places only (`without_congr`).

A run warns about nested entries.  `Cleaner.entries` lists those of all levels in pre-order, each
with the keys that lead to it, and `Entry.warns` says about which of them a run warns, by what the
document holds before it (`cleanMembers_notes`).  No place that the cleaner removes is on the way to
such an entry (`not_prefix_of_spared`), so what is looked at there is still there when the cleaner
runs again.

The main statement is `runs_of_cleaners`.
-/

namespace Manifest

namespace Value

/-! ### Sets of places -/

theorem mem_placesBelow_congr {a b : List (List String)} (h : ∀ place, place ∈ a ↔ place ∈ b)
    (key : String) (place : List String) :
    place ∈ placesBelow key a ↔ place ∈ placesBelow key b := by
  rw [mem_placesBelow, mem_placesBelow, h]

/-- **What is left out depends on the set of places only.** -/
theorem without_congr {a b : List (List String)} (h : ∀ place, place ∈ a ↔ place ∈ b) (v : Value) :
    v.without a = v.without b := by
  induction v using nodeInduction generalizing a b with
  | record kind members ih =>
    rw [without_record, without_record]
    congr 1
    induction members with
    | nil => rw [membersWithout, membersWithout]
    | cons e rest ihr =>
      obtain ⟨he, hrest⟩ := List.forall_mem_cons.mp ih
      by_cases hk : [e.1] ∈ a
      · rw [membersWithout_cons_of_mem hk, membersWithout_cons_of_mem ((h _).mp hk), ihr hrest]
      · rw [membersWithout_cons_of_notMem hk, membersWithout_cons_of_notMem (mt (h _).mpr hk),
          he (mem_placesBelow_congr h e.1), ihr hrest]
  | _ => simp only [without]

theorem members?_without (gone : List (List String)) (v : Value) :
    (v.without gone).members?.isNone = v.members?.isNone := by
  cases v with
  | record kind members => rw [without_record]; rfl
  | _ => simp only [without]

/-- What is not at one of the places or below it is still there, without what is at places
below. -/
theorem exists_memberAt?_without {gone : List (List String)} {q : List String}
    (h : ∀ place ∈ gone, ¬ place <+: q) :
    ∃ below, ∀ v : Value, (v.without gone).memberAt? q = (v.memberAt? q).map (without below) := by
  induction q generalizing gone with
  | nil => exact ⟨gone, fun v => by rw [memberAt?_nil, memberAt?_nil]; rfl⟩
  | cons key rest ih =>
    have hk : [key] ∉ gone := fun hg => h _ hg (by simp)
    have hbelow : ∀ place ∈ placesBelow key gone, ¬ place <+: rest := fun place hp hpre =>
      h _ (mem_placesBelow.mp hp) (List.cons_prefix_cons.mpr ⟨rfl, hpre⟩)
    obtain ⟨below, hb⟩ := ih hbelow
    refine ⟨below, fun v => ?_⟩
    rw [memberAt?_cons, memberAt?_cons, member?_without, if_neg hk]
    cases v.member? key with
    | none => rfl
    | some child => exact hb child

end Value

namespace Cleaner

open Value

/-- Induction on the levels of a cleaner. -/
@[elab_as_elim]
theorem levelInduction {motive : Cleaner → Prop}
    (mk : ∀ fields nested, (∀ e ∈ nested, motive e.2) → motive (mk fields nested)) (c : Cleaner) :
    motive c :=
  @Cleaner.rec motive (fun nested => ∀ e ∈ nested, motive e.2) (fun e => motive e.2) mk
    (fun _ h => absurd h List.not_mem_nil)
    (fun _ _ he hrest => List.forall_mem_cons.mpr ⟨he, hrest⟩) (fun _ _ hc => hc) c

/-! ### Entries -/

/-- A nested entry: the keys that lead to it, whether none of them is among the fields of its own
level, and the cleaner. -/
structure Entry where
  place : List String
  spared : Bool
  cleaner : Cleaner

/-- An entry seen from a level further up. -/
def Entry.below (key : String) (spared : Bool) (e : Entry) : Entry :=
  ⟨key :: e.place, spared && e.spared, e.cleaner⟩

mutual

/-- The nested entries of all levels, each in front of those below it. -/
def entries : Cleaner → List Entry
  | mk fields nested => nestedEntries fields nested

/-- The entries of a level with the given fields, and those below them. -/
def nestedEntries (fields : List String) : List (String × Cleaner) → List Entry
  | [] => []
  | (key, c) :: rest =>
    ⟨[key], key ∉ fields, c⟩ :: ((entries c).map (Entry.below key (key ∉ fields)) ++
      nestedEntries fields rest)

end

/-- A run over a document warns about an entry: it is reached through records and not removed on the
way there, it describes something, and it is present and no record. -/
def Entry.warns (root : Value) (e : Entry) : Bool :=
  e.spared && !e.cleaner.removesWhole && (root.memberAt? e.place).any fun v => v.members?.isNone

/-- The warning about an entry names its keys, with dots between them. -/
def Entry.warning (e : Entry) : Note := skipping (".".intercalate e.place)

mutual

/-- No key stands twice among the nested entries of a level. -/
def isKeyed : Cleaner → Bool
  | mk _ nested => decide (Fields.Distinct nested) && nestedAreKeyed nested

/-- No key stands twice in a level below the given entries. -/
def nestedAreKeyed : List (String × Cleaner) → Bool
  | [] => true
  | (_, c) :: rest => isKeyed c && nestedAreKeyed rest

end

theorem isKeyed_mk {fields : List String} {nested : List (String × Cleaner)} :
    (mk fields nested).isKeyed = true ↔
      Fields.Distinct nested ∧ ∀ e ∈ nested, e.2.isKeyed = true := by
  have hall : nestedAreKeyed nested = true ↔ ∀ e ∈ nested, e.2.isKeyed = true := by
    induction nested with
    | nil => simp [nestedAreKeyed]
    | cons e rest ih => simp [nestedAreKeyed, ih]
  rw [isKeyed, Bool.and_eq_true, decide_eq_true_eq, hall]

theorem mem_nestedEntries {fields : List String} {nested : List (String × Cleaner)} {e : Entry} :
    e ∈ nestedEntries fields nested ↔ ∃ key c, (key, c) ∈ nested ∧
      (e = ⟨[key], key ∉ fields, c⟩ ∨
        ∃ inner ∈ c.entries, e = inner.below key (key ∉ fields)) := by
  induction nested with
  | nil => simp [nestedEntries]
  | cons first rest ih =>
    obtain ⟨key, c⟩ := first
    rw [nestedEntries, List.mem_cons, List.mem_append, ih, List.mem_map]
    constructor
    · rintro (rfl | ⟨inner, hi, rfl⟩ | ⟨key', c', hmem, h⟩)
      · exact ⟨key, c, List.mem_cons_self, Or.inl rfl⟩
      · exact ⟨key, c, List.mem_cons_self, Or.inr ⟨inner, hi, rfl⟩⟩
      · exact ⟨key', c', List.mem_cons_of_mem _ hmem, h⟩
    · rintro ⟨key', c', hmem, h⟩
      rcases List.mem_cons.mp hmem with heq | hrest
      · cases heq
        rcases h with rfl | ⟨inner, hi, rfl⟩
        · exact Or.inl rfl
        · exact Or.inr (Or.inl ⟨inner, hi, rfl⟩)
      · exact Or.inr (Or.inr ⟨key', c', hrest, h⟩)

theorem entries_mk (fields : List String) (nested : List (String × Cleaner)) :
    (mk fields nested).entries = nestedEntries fields nested := by
  rw [entries]

theorem nestedEntries_cons (fields : List String) (key : String) (c : Cleaner)
    (rest : List (String × Cleaner)) :
    nestedEntries fields ((key, c) :: rest) = [⟨[key], key ∉ fields, c⟩] ++
      c.entries.map (Entry.below key (key ∉ fields)) ++ nestedEntries fields rest := by
  rw [nestedEntries]
  rfl

theorem mem_nestedLocations {nested : List (String × Cleaner)} {place : List String} :
    place ∈ nestedLocations nested ↔ ∃ key c, (key, c) ∈ nested ∧
      if c.removesWhole then place = [key] else ∃ inner ∈ c.locations, place = key :: inner := by
  induction nested with
  | nil => simp [nestedLocations]
  | cons first rest ih =>
    obtain ⟨key, c⟩ := first
    have hfirst : (place ∈ if c.removesWhole then [[key]] else c.locations.map (key :: ·)) ↔
        if c.removesWhole then place = [key] else ∃ inner ∈ c.locations, place = key :: inner := by
      split
      · exact List.mem_singleton
      · rw [List.mem_map]
        exact exists_congr fun inner => and_congr_right fun _ => eq_comm
    rw [nestedLocations, List.mem_append, ih, hfirst]
    constructor
    · rintro (h | ⟨key', c', hmem, h⟩)
      · exact ⟨key, c, List.mem_cons_self, h⟩
      · exact ⟨key', c', List.mem_cons_of_mem _ hmem, h⟩
    · rintro ⟨key', c', hmem, h⟩
      rcases List.mem_cons.mp hmem with heq | hrest
      · cases heq
        exact Or.inl h
      · exact Or.inr ⟨key', c', hrest, h⟩

theorem place_ne_nil {c : Cleaner} {e : Entry} (h : e ∈ c.entries) : e.place ≠ [] := by
  cases c with
  | mk fields nested =>
    rw [entries_mk, mem_nestedEntries] at h
    obtain ⟨key, c, -, rfl | ⟨inner, -, rfl⟩⟩ := h <;> exact List.cons_ne_nil _ _

theorem entries_of_removesWhole {c : Cleaner} (h : c.removesWhole = true) : c.entries = [] := by
  cases c with
  | mk fields nested =>
    have hn : nested = [] := by
      rw [removesWhole, Bool.and_eq_true, List.isEmpty_iff, List.isEmpty_iff] at h
      exact h.2
    rw [entries_mk, hn, nestedEntries]

theorem nodup_places {c : Cleaner} (h : c.isKeyed = true) : (c.entries.map Entry.place).Nodup := by
  induction c using levelInduction with
  | mk fields nested ih =>
    obtain ⟨hd, hall⟩ := isKeyed_mk.mp h
    rw [entries_mk]
    clear h
    induction nested with
    | nil => rw [nestedEntries]; exact List.nodup_nil
    | cons first rest ihr =>
      obtain ⟨key, c⟩ := first
      obtain ⟨hkey, hdrest⟩ := List.nodup_cons.mp hd
      obtain ⟨hc, hrest⟩ := List.forall_mem_cons.mp ih
      obtain ⟨hkc, hkrest⟩ := List.forall_mem_cons.mp hall
      have hbelow : (c.entries.map (Entry.below key (key ∉ fields))).map Entry.place =
          (c.entries.map Entry.place).map (key :: ·) := by
        rw [List.map_map, List.map_map]
        rfl
      rw [nestedEntries, List.map_cons, List.map_append, hbelow, List.nodup_cons,
        List.nodup_append, List.mem_append, not_or]
      -- The places below an entry begin with its key, and those of the others with another one.
      have hother : ∀ place ∈ (nestedEntries fields rest).map Entry.place,
          ∀ inner, place ≠ key :: inner := by
        rintro place hp inner rfl
        obtain ⟨e, he, hplace⟩ := List.mem_map.mp hp
        obtain ⟨key', c', hmem, h⟩ := mem_nestedEntries.mp he
        have hkk : key' = key := by
          rcases h with rfl | ⟨deep, -, rfl⟩ <;> exact (List.cons.inj hplace).1
        exact hkey (List.mem_map.mpr ⟨(key', c'), hmem, hkk⟩)
      refine ⟨⟨?_, fun hp => hother _ hp [] rfl⟩, ?_, ihr hrest hdrest hkrest, ?_⟩
      · intro hp
        obtain ⟨inner, hi, heq⟩ := List.mem_map.mp hp
        obtain ⟨e, he, rfl⟩ := List.mem_map.mp hi
        exact place_ne_nil he (List.cons.inj heq).2
      · exact (hc hkc).map (List.cons_injective)
      · rintro a ha b hb rfl
        obtain ⟨inner, -, rfl⟩ := List.mem_map.mp ha
        exact hother _ hb inner rfl

/-- **A cleaner removes nothing on the way to an entry** that is spared and describes something. -/
theorem not_prefix_of_spared {c : Cleaner} (hk : c.isKeyed = true) {e : Entry} (he : e ∈ c.entries)
    (hs : e.spared = true) (hw : e.cleaner.removesWhole = false) :
    ∀ place ∈ c.locations, ¬ place <+: e.place := by
  induction c using levelInduction generalizing e with
  | mk fields nested ih =>
    obtain ⟨hd, hall⟩ := isKeyed_mk.mp hk
    rw [entries_mk] at he
    obtain ⟨key, c, hmem, hentry⟩ := mem_nestedEntries.mp he
    obtain ⟨hkey, deeper, hplace⟩ : key ∉ fields ∧ ∃ deeper, e.place = key :: deeper := by
      rcases hentry with rfl | ⟨inner, -, rfl⟩
      · exact ⟨of_decide_eq_true hs, [], rfl⟩
      · exact ⟨of_decide_eq_true (Bool.and_eq_true_iff.mp hs).1, inner.place, rfl⟩
    intro place hp hpre
    rw [locations, List.mem_append, List.mem_map] at hp
    rcases hp with ⟨field, hfield, rfl⟩ | hp
    · rw [hplace, List.cons_prefix_cons] at hpre
      exact hkey (hpre.1 ▸ hfield)
    · obtain ⟨key', c', hmem', hloc⟩ := mem_nestedLocations.mp hp
      -- The place begins with the same key, so it is one of the same entry.
      have hsame : key' = key ∧ c' = c := by
        have hkk : key' = key := by
          rw [hplace] at hpre
          split at hloc
          · rw [hloc, List.cons_prefix_cons] at hpre
            exact hpre.1
          · obtain ⟨inner, -, rfl⟩ := hloc
            exact (List.cons_prefix_cons.mp hpre).1
        subst hkk
        have h := Fields.get?_of_mem hd hmem
        rw [Fields.get?_of_mem hd hmem', Option.some.injEq] at h
        exact ⟨rfl, h⟩
      obtain ⟨rfl, rfl⟩ := hsame
      by_cases hwhole : c'.removesWhole = true
      · rcases hentry with rfl | ⟨inner, hi, -⟩
        · rw [hwhole] at hw
          cases hw
        · rw [entries_of_removesWhole hwhole] at hi
          cases hi
      · rw [if_neg hwhole] at hloc
        obtain ⟨loc, hloc, rfl⟩ := hloc
        rcases hentry with rfl | ⟨inner, hi, rfl⟩
        · have hnil : loc = [] := List.prefix_nil.mp (List.cons_prefix_cons.mp hpre).2
          exact nil_notMem_locations c' (hnil ▸ hloc)
        · exact ih _ hmem' (hall _ hmem') hi (Bool.and_eq_true_iff.mp hs).2 hw loc hloc
            (List.cons_prefix_cons.mp hpre).2

/-! ### Warnings -/

/-- The warnings about some entries of the document at `place`. -/
def warningsAt (place : String) (root : Value) (entries : List Entry) : List Note :=
  (entries.filter (Entry.warns root)).map fun e => skipping (place ++ ".".intercalate e.place)

theorem warningsAt_append (place : String) (root : Value) (a b : List Entry) :
    warningsAt place root (a ++ b) = warningsAt place root a ++ warningsAt place root b := by
  rw [warningsAt, List.filter_append, List.map_append]
  rfl

theorem warningsAt_of_members?_none {v : Value} (h : v.members? = none) (place : String)
    (c : Cleaner) : warningsAt place v c.entries = [] := by
  have hnone : c.entries.filter (Entry.warns v) = [] := by
    refine List.filter_eq_nil_iff.mpr fun e he => ?_
    obtain ⟨key, rest, hplace⟩ := List.exists_cons_of_ne_nil (place_ne_nil he)
    simp [Entry.warns, hplace, memberAt?_cons, member?, h]
  rw [warningsAt, hnone, List.map_nil]

theorem warns_below (root : Value) (key : String) (spared : Bool) (e : Entry) :
    (e.below key spared).warns root =
      (if spared then root.member? key else none).any fun child => e.warns child := by
  cases spared with
  | false => simp [Entry.warns, Entry.below]
  | true =>
    rw [Entry.warns, Entry.below, memberAt?_cons, if_pos rfl]
    cases root.member? key <;> simp [Entry.warns]

theorem warningsAt_below (place : String) (root : Value) (key : String) (spared : Bool)
    (c : Cleaner) :
    warningsAt place root (c.entries.map (Entry.below key spared)) =
      match if spared then root.member? key else none with
      | none => []
      | some child => warningsAt (place ++ key ++ ".") child c.entries := by
  have hfilter : (c.entries.map (Entry.below key spared)).filter (Entry.warns root) =
      (c.entries.filter fun e => (if spared then root.member? key else none).any
        fun child => e.warns child).map (Entry.below key spared) := by
    rw [List.filter_map]
    congr 2
    funext e
    exact warns_below root key spared e
  rw [warningsAt, hfilter, List.map_map]
  cases (if spared then root.member? key else none) with
  | none => simp
  | some child =>
    refine List.map_congr_left fun e he => ?_
    have hne : e.place ≠ [] := place_ne_nil (List.mem_of_mem_filter he)
    show skipping (place ++ ".".intercalate (key :: e.place)) =
      skipping (place ++ key ++ "." ++ ".".intercalate e.place)
    rw [String.intercalate_cons_of_ne_nil hne]
    simp only [String.append_assoc]

theorem warningsAt_own (place : String) (root : Value) (key : String) (spared : Bool)
    (c : Cleaner) :
    warningsAt place root [⟨[key], spared, c⟩] =
      if c.removesWhole then []
      else
        match if spared then root.member? key else none with
        | none => []
        | some child => if child.members?.isNone then [skipping (place ++ key)] else [] := by
  have hwarns : (Entry.mk [key] spared c).warns root =
      (!c.removesWhole && (if spared then root.member? key else none).any
        fun child => child.members?.isNone) := by
    cases spared with
    | false => simp [Entry.warns]
    | true =>
      rw [Entry.warns, memberAt?_cons, if_pos rfl]
      cases root.member? key <;> simp [memberAt?_nil]
  rw [warningsAt, List.filter_singleton, hwarns]
  cases c.removesWhole with
  | true => simp
  | false =>
    cases (if spared then root.member? key else none) with
    | none => simp
    | some child => cases h : child.members? <;> simp [h]

/-- The nested entries of a level warn about the members that its fields have left.  These are seen
in `left`, where the entries before may have been at work; they have other keys. -/
theorem cleanNested_notes {fields : List String} {nested : List (String × Cleaner)}
    (ih : ∀ e ∈ nested, ∀ place kind members,
      (cleanMembers place e.2 members).2 = warningsAt place (.record kind members) e.2.entries)
    (hd : Fields.Distinct nested) (place : String) (kind : RecordKind) {members left : Fields Value}
    (hleft : ∀ e ∈ nested, Fields.get? left e.1 =
      if e.1 ∉ fields then Fields.get? members e.1 else none) :
    (cleanNested place nested left).2 =
      warningsAt place (.record kind members) (nestedEntries fields nested) := by
  induction nested generalizing left with
  | nil => rw [cleanNested, nestedEntries]; rfl
  | cons first rest ihr =>
    obtain ⟨key, c⟩ := first
    obtain ⟨hc, hrest⟩ := List.forall_mem_cons.mp ih
    obtain ⟨hkey, hdrest⟩ := List.nodup_cons.mp hd
    obtain ⟨hseen, hleftrest⟩ := List.forall_mem_cons.mp hleft
    -- What the first entry leaves is as good as before for the others.
    have hgo : ∀ next : Fields Value,
        (∀ other, other ≠ key → Fields.get? next other = Fields.get? left other) →
          (cleanNested place rest next).2 =
            warningsAt place (.record kind members) (nestedEntries fields rest) := by
      intro next hnext
      refine ihr hrest hdrest fun e he => ?_
      have hne : e.1 ≠ key := fun h => hkey (List.mem_map.mpr ⟨e, he, h⟩)
      rw [hnext e.1 hne, hleftrest e he]
    have hmember : (if decide (key ∉ fields) = true then
        (Value.record kind members).member? key else none) = Fields.get? left key := by
      rw [hseen]
      simp only [decide_eq_true_eq]
      rfl
    rw [nestedEntries_cons, warningsAt_append, warningsAt_append, warningsAt_own,
      warningsAt_below, hmember, cleanNested, List.append_assoc]
    by_cases hw : c.removesWhole = true
    · rw [if_pos hw, if_pos hw, entries_of_removesWhole hw,
        hgo _ fun other h => Fields.get?_erase_of_ne left h]
      cases Fields.get? left key <;> rfl
    · rw [if_neg hw, if_neg hw]
      cases Fields.get? left key with
      | none => exact hgo left fun _ _ => rfl
      | some child =>
        cases child with
        | record innerKind inner =>
          dsimp only
          rw [hgo _ fun other h => Fields.get?_insert_of_ne left _ h, hc _ innerKind]
          rfl
        | _ =>
          dsimp only
          rw [hgo left fun _ _ => rfl, warningsAt_of_members?_none rfl]
          rfl

/-- **What a run warns about** is told by the document before it. -/
theorem cleanMembers_notes {c : Cleaner} (hk : c.isKeyed = true) (place : String)
    (kind : RecordKind) (members : Fields Value) :
    (cleanMembers place c members).2 = warningsAt place (.record kind members) c.entries := by
  induction c using levelInduction generalizing place kind members with
  | mk fields nested ih =>
    obtain ⟨hd, hall⟩ := isKeyed_mk.mp hk
    rw [cleanMembers, entries_mk]
    refine cleanNested_notes (fun e he place kind members => ih e he (hall e he) place kind members)
      hd place kind fun e _ => ?_
    by_cases hf : e.1 ∈ fields
    · rw [if_neg (not_not.mpr hf), eraseFields_eq_membersWithout, get?_membersWithout,
        if_pos (List.mem_map.mpr ⟨e.1, hf, rfl⟩)]
    · rw [if_pos hf, get?_eraseFields_of_notMem hf]

theorem warns_without {c : Cleaner} (hk : c.isKeyed = true) {e : Entry} (he : e ∈ c.entries)
    (root : Value) : e.warns (root.without c.locations) = e.warns root := by
  rw [Entry.warns, Entry.warns]
  by_cases hs : (e.spared && !e.cleaner.removesWhole) = true
  · obtain ⟨hspared, hwhole⟩ := Bool.and_eq_true_iff.mp hs
    rw [Bool.not_eq_true'] at hwhole
    obtain ⟨below, hb⟩ := exists_memberAt?_without (not_prefix_of_spared hk he hspared hwhole)
    rw [hb root]
    cases root.memberAt? e.place with
    | none => rfl
    | some v => simp only [Option.map_some, Option.any_some, members?_without]
  · rw [Bool.eq_false_iff.mpr hs]
    rfl

/-! ### Several runs -/

theorem clean_left (c : Cleaner) {members : Fields Value} (h : (object members).isDocument = true) :
    (c.clean (object members)).1 = (object members).without c.locations := by
  rw [clean_record, cleanMembers_eq "" c h, without_record]

/-- A second run leaves out the places of both cleaners. -/
theorem clean_clean_left (c d : Cleaner) {members : Fields Value}
    (h : (object members).isDocument = true) :
    (d.clean (c.clean (object members)).1).1 =
      (object members).without (c.locations ++ d.locations) := by
  rw [clean_left c h, ← without_without, without_record]
  exact clean_left d (isDocument_membersWithout h c.locations)

theorem clean_notes {c : Cleaner} (hk : c.isKeyed = true) (members : Fields Value) :
    (c.clean (object members)).2 =
      (c.entries.filter (Entry.warns (object members))).map Entry.warning := by
  rw [clean_record, cleanMembers_notes hk "" .plain members, warningsAt]
  refine List.map_congr_left fun e _ => ?_
  rw [String.empty_append, Entry.warning]

/-- **Runs of cleaners**: two cleaners leave the same content in either order, and one that runs
twice leaves what it leaves at once.  In pre-order of its nested entries, each of them at another
place, a run warns about those that describe something, that are reached through records without
being removed on the way, and that are present and no records; and a second run warns about the
same. -/
theorem runs_of_cleaners (c d : Cleaner) (hk : c.isKeyed = true) {members : Fields Value}
    (h : (object members).isDocument = true) :
    let root := object members
    (d.clean (c.clean root).1).1.same (c.clean (d.clean root).1).1 = true ∧
      (c.clean (c.clean root).1).1 = (c.clean root).1 ∧
      (c.entries.map Entry.place).Nodup ∧
      (c.clean root).2 = (c.entries.filter (Entry.warns root)).map Entry.warning ∧
      (c.clean (c.clean root).1).2 = (c.clean root).2 := by
  intro root
  refine ⟨?_, ?_, nodup_places hk, clean_notes hk members, ?_⟩
  · have hcomm : (d.clean (c.clean root).1).1 = (c.clean (d.clean root).1).1 := by
      rw [clean_clean_left c d h, clean_clean_left d c h]
      exact without_congr (fun place => by rw [List.mem_append, List.mem_append, or_comm]) _
    rw [hcomm, clean_clean_left d c h]
    exact same_refl (isDocument_without h _)
  · rw [clean_clean_left c c h, clean_left c h]
    exact without_congr (fun place => by rw [List.mem_append, or_self]) _
  · have hsame : c.entries.filter (Entry.warns (root.without c.locations)) =
        c.entries.filter (Entry.warns root) :=
      List.filter_congr fun e he => warns_without hk he root
    rw [clean_left c h, clean_notes hk members, ← hsame]
    show (c.clean ((object members).without c.locations)).2 = _
    rw [without_record]
    exact clean_notes hk _

/-- A truth value and an array where records are expected, the array below a record, next to an
entry whose key is removed by the fields of its level, one that is not there and one below the truth
value. -/
theorem runs_of_cleaners_with_warnings :
    let c := mk ["f"] [("a", mk [] [("b", mk ["x"] []), ("g", mk ["x"] [])]), ("f", mk ["x"] []),
      ("n", mk [] [("m", mk ["x"] [])])]
    let d := mk ["n"] [("a", mk [] [("b", mk [] [])])]
    let members := [("a", object [("b", array [])]), ("f", null), ("n", bool true), ("x", null)]
    let root := object members
    c.isKeyed = true ∧ root.isDocument = true ∧
      (d.clean (c.clean root).1).1.same (c.clean (d.clean root).1).1 = true ∧
      (c.clean root).2 = [skipping "a.b", skipping "n"] ∧
      (c.clean (c.clean root).1).2 = (c.clean root).2 := by
  intro c d members root
  have hk : c.isKeyed = true := by decide
  have h : root.isDocument = true := by decide
  have hruns := runs_of_cleaners c d hk h
  exact ⟨hk, h, hruns.1, by decide +kernel, hruns.2.2.2.2⟩

end Cleaner

end Manifest
