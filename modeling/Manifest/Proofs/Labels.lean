import Manifest.Proofs.Update
import Manifest.Resource
import Manifest.Value.Identity

/-!
# Labels as a map

The labels of a resource are a record of texts.  `Resource.HasLabels` says which map of texts to
texts the record holds; a missing record holds the empty one.  Setting a label writes one entry of
that map (`setLabel_of_hasLabels`), and reading looks an entry up (`label_of_hasLabels`).

The main statement is `label_of_setLabels`: after a series of calls every label is the one set last,
or the one that was there before.  It is about keys in the sense of `Role.key`; texts that address
elements of arrays are no names of labels.  Two keys are reserved: the report of a missing place
drops an empty one, and `prototypeKey` may not be written as a member.
-/

namespace Manifest

namespace Fields

variable {α β : Type}

theorem get?_append (m other : Fields α) (key : String) :
    get? (m ++ other) key = (get? m key).or (get? other key) := by
  induction m with
  | nil => simp
  | cons e rest ih =>
    obtain ⟨k, v⟩ := e
    by_cases hk : k = key
    · simp [get?_cons, hk]
    · simp [get?_cons, hk, ih]

@[simp] theorem mapValues_cons (f : α → β) (k : String) (v : α) (m : Fields α) :
    mapValues f ((k, v) :: m) = (k, f v) :: mapValues f m := rfl

theorem get?_mapValues (f : α → β) (m : Fields α) (key : String) :
    get? (mapValues f m) key = (get? m key).map f := by
  induction m with
  | nil => rfl
  | cons e rest ih =>
    obtain ⟨k, v⟩ := e
    rw [mapValues_cons, get?_cons, get?_cons]
    by_cases hk : k = key
    · simp [hk]
    · simp [hk, ih]

theorem insert_mapValues (f : α → β) (m : Fields α) (key : String) (v : α) :
    insert (mapValues f m) key (f v) = mapValues f (insert m key v) := by
  induction m with
  | nil => rfl
  | cons e rest ih =>
    obtain ⟨k, w⟩ := e
    by_cases hk : k = key
    · simp [insert, hk]
    · simp [insert, hk, ih]

theorem get?_foldl_insert (writes m : Fields α) (key : String) :
    get? (writes.foldl (fun m e => insert m e.1 e.2) m) key =
      (get? writes.reverse key).or (get? m key) := by
  induction writes generalizing m with
  | nil => simp
  | cons e rest ih =>
    obtain ⟨k, v⟩ := e
    rw [List.foldl_cons, ih, List.reverse_cons, get?_append]
    by_cases hk : k = key
    · subst hk
      rw [get?_insert_self, get?_cons, if_pos rfl]
      cases get? rest.reverse k <;> rfl
    · rw [get?_insert_of_ne m v (Ne.symm hk), get?_cons, if_neg hk]
      cases get? rest.reverse key <;> rfl

end Fields

namespace Resource

open Value

/-- Sets labels one after the other, up to the first that cannot be set. -/
def setLabels : Resource → List (String × String) → Step Unit
  | r, [] => ⟨.ok (), r, []⟩
  | r, (key, text) :: rest =>
    let first := r.setLabel key text
    match first.result with
    | .ok () =>
      let others := first.resource.setLabels rest
      ⟨others.result, others.resource, first.notes ++ others.notes⟩
    | .error fault => ⟨.error fault, first.resource, first.notes⟩

/-- The labels that a resource holds.  Its metadata are a record; labels that are missing there are
no labels. -/
inductive HasLabels (r : Resource) : Fields String → Prop
  | missing {kind : RecordKind} {members : Fields Value} :
      r.root.at? Path.metadata = some (record kind members) →
      Fields.get? members "labels" = none → HasLabels r []
  | held {kind : RecordKind} {labels : Fields String} :
      r.root.at? Path.labels = some (record kind (Fields.mapValues string labels)) →
      HasLabels r labels

/-- The keys that are not written below every record. -/
def reservedKeys : List String := ["", prototypeKey]

/-- Calls may set the reserved keys among theirs: each is a label already, or the first one of labels
that were missing before. -/
def ReservedKeysFree (r : Resource) (labels calls : Fields String) : Prop :=
  ∀ key ∈ Fields.keys calls, key ∈ reservedKeys → Fields.contains labels key = true ∨
    (r.root.at? Path.labels = none ∧ (Fields.keys calls).head? = some key)

section Place
variable {r : Resource} {kind : RecordKind} {members : Fields Value}

theorem at?_labelPath (hl : r.root.at? Path.labels = some (record kind members)) {key : String}
    (hk : Role.ofSegment key = .key) :
    r.root.at? (labelPath key) = Fields.get? members key :=
  at?_entry hl hk

end Place

/-! ### Reading a label -/

section Read
variable {r : Resource} {labels : Fields String}

theorem label_of_missing {kind : RecordKind} {members : Fields Value}
    (hm : r.root.at? Path.metadata = some (record kind members))
    (hl : Fields.get? members "labels" = none) (key : String) :
    ∃ segment, r.label key = .error (.notFound segment) := by
  have hp : labelPath key = Path.metadata ++ "labels" :: [key] := rfl
  obtain ⟨segment, hg⟩ := get_of_missing_key hm (by decide) hl [key]
  exact ⟨segment, by rw [label, hp, getString, hg]⟩

theorem label_of_ne_key {kind : RecordKind} {members : Fields Value}
    (hl : r.root.at? Path.labels = some (record kind members)) {key : String}
    (hk : Role.ofSegment key ≠ .key) : r.label key = .error (.notAnArray "labels") := by
  have ho : obstacle "" (labelPath key) r.root = some (.notAnArray "labels") := by
    rw [labelPath, obstacle_append hl]
    simp only [obstacle, misfit, if_neg hk]
    rfl
  rw [label, getString, get_of_obstacle ho]

/-- **Reading a label looks it up.** -/
theorem label_of_hasLabels (h : r.HasLabels labels) {key : String}
    (hk : Role.ofSegment key = .key) :
    match Fields.get? labels key with
    | some text => r.label key = .ok text
    | none => ∃ segment, r.label key = .error (.notFound segment) := by
  cases h with
  | missing hm hl => exact label_of_missing hm hl key
  | @held kind labels hl =>
    have hat := at?_labelPath hl hk
    rw [Fields.get?_mapValues] at hat
    cases hg : Fields.get? labels key with
    | some text =>
      rw [hg] at hat
      show r.label key = .ok text
      rw [label, getString, get_of_at? hat]
    | none =>
      have hm : Fields.get? (Fields.mapValues string labels) key = none := by
        rw [Fields.get?_mapValues, hg]
        rfl
      obtain ⟨segment, hn⟩ := get_of_missing_key hl hk hm []
      exact ⟨segment, by rw [label, labelPath, getString, hn]⟩

end Read

/-! ### Setting a label -/

section Write
variable {r : Resource} {labels calls : Fields String} {key text : String}

theorem setLabel_of_additionFor {p : Path} {segment : String} {kind : RecordKind}
    {members : Fields Value} {new : Value} (hp : r.root.at? p = some (record kind members))
    (hs : Role.ofSegment segment = .key) (ha : (record kind members).adopts segment = false)
    (hn : new.present? = some new)
    (h : r.root.additionFor (labelPath key) (string text) = .ok ⟨p ++ [segment], new⟩) :
    ∃ left notes, r.setLabel key text = ⟨.ok (), left, notes⟩ ∧
      left.root.at? p = some (record kind (Fields.insert members segment new)) := by
  have hput := put_record_of_key kind members hs new
  rw [assign_of_not_adopts ha] at hput
  refine ⟨⟨r.root.putAt p (record kind (Fields.insert members segment new))⟩,
    creating (p ++ [segment]) (labelPath key), ?_, at?_putAt hp _⟩
  unfold setLabel set
  rw [set_of_additionFor h hp hn hput]

theorem exists_get?_of_reservedKeysFree {kind : RecordKind} {members : Fields Value}
    (hl : r.root.at? Path.labels = some (record kind members))
    (he : r.ReservedKeysFree labels ((key, text) :: calls)) (hr : key ∈ reservedKeys) :
    ∃ old, Fields.get? labels key = some old := by
  rcases he key (by simp [Fields.keys]) hr with hc | ⟨hn, -⟩
  · exact (Fields.contains_eq_true_iff _ _).mp hc
  · rw [hl] at hn
    cases hn

/-- **Setting a label writes one entry.** -/
theorem setLabel_of_hasLabels (h : r.HasLabels labels) (hk : Role.ofSegment key = .key)
    (he : r.ReservedKeysFree labels ((key, text) :: calls)) :
    ∃ left notes, r.setLabel key text = ⟨.ok (), left, notes⟩ ∧
      left.HasLabels (Fields.insert labels key text) := by
  cases h with
  | @missing kind members hm hl =>
    have hadd : r.root.additionFor (labelPath key) (string text) =
        .ok ⟨Path.metadata ++ ["labels"], object [(key, string text)]⟩ := by
      have hp : labelPath key = Path.metadata ++ "labels" :: [key] := rfl
      rw [hp, additionFor_of_missing_key hm (by decide) hl (by decide)]
      simp only [wrap, hk, Except.map]
    obtain ⟨left, notes, hset, hat⟩ :=
      setLabel_of_additionFor hm (by decide) (not_adopts_of_ne _ (by decide)) rfl hadd
    refine ⟨left, notes, hset, @HasLabels.held left .plain [(key, text)] ?_⟩
    have hp : Path.labels = Path.metadata ++ ["labels"] := rfl
    rw [hp, at?_append_of_at? hat, at?_singleton, child?_record_of_key (by decide),
      Fields.get?_insert_self]
    rfl
  | @held kind labels hl =>
    have hheld : key ∈ reservedKeys →
        ∃ old, Fields.get? (Fields.mapValues string labels) key = some old := by
      intro hr
      obtain ⟨old, ho⟩ := exists_get?_of_reservedKeysFree hl he hr
      exact ⟨string old, by rw [Fields.get?_mapValues, ho, Option.map_some]⟩
    have hadd : r.root.additionFor (labelPath key) (string text) =
        .ok ⟨Path.labels ++ [key], string text⟩ := by
      refine additionFor_entry hl hk (fun hg => ?_) (string text)
      rintro rfl
      obtain ⟨old, ho⟩ := hheld (by simp [reservedKeys])
      rw [hg] at ho
      cases ho
    have ha : (record kind (Fields.mapValues string labels)).adopts key = false := by
      by_cases hp : key = prototypeKey
      · obtain ⟨old, ho⟩ := hheld (by simp [reservedKeys, hp])
        exact not_adopts_of_get? ho
      · exact not_adopts_of_ne _ hp
    obtain ⟨left, notes, hset, hat⟩ := setLabel_of_additionFor hl hk ha rfl hadd
    rw [Fields.insert_mapValues] at hat
    exact ⟨left, notes, hset, .held hat⟩

theorem reservedKeysFree_insert (he : r.ReservedKeysFree labels ((key, text) :: calls))
    (left : Resource) : left.ReservedKeysFree (Fields.insert labels key text) calls := by
  intro other hmem hr
  left
  by_cases hk : other = key
  · subst hk
    exact (Fields.contains_eq_true_iff _ _).mpr ⟨text, Fields.get?_insert_self _ _ _⟩
  · rcases he other (List.mem_cons_of_mem _ hmem) hr with hc | ⟨-, hh⟩
    · obtain ⟨old, ho⟩ := (Fields.contains_eq_true_iff _ _).mp hc
      exact (Fields.contains_eq_true_iff _ _).mpr
        ⟨old, (Fields.get?_insert_of_ne _ _ hk).trans ho⟩
    · exact absurd (Option.some.inj hh).symm hk

/-- **A series of calls writes its entries one after the other.** -/
theorem setLabels_of_hasLabels (h : r.HasLabels labels)
    (hk : ∀ key ∈ Fields.keys calls, Role.ofSegment key = .key)
    (he : r.ReservedKeysFree labels calls) :
    (r.setLabels calls).result = .ok () ∧ (r.setLabels calls).resource.HasLabels
      (calls.foldl (fun m e => Fields.insert m e.1 e.2) labels) := by
  induction calls generalizing r labels with
  | nil => exact ⟨rfl, h⟩
  | cons call rest ih =>
    obtain ⟨key, text⟩ := call
    obtain ⟨left, notes, hset, hleft⟩ :=
      setLabel_of_hasLabels h (hk key (by simp [Fields.keys])) he
    obtain ⟨hok, hheld⟩ := ih hleft
      (fun other hother => hk other (List.mem_cons_of_mem _ hother)) (reservedKeysFree_insert he left)
    simp only [setLabels, hset, List.foldl_cons]
    exact ⟨hok, hheld⟩

end Write

/-! ### Labels are a map -/

theorem toOption_label {r : Resource} {labels : Fields String} (h : r.HasLabels labels)
    (key : String) :
    (r.label key).toOption =
      if Role.ofSegment key = .key then Fields.get? labels key else none := by
  by_cases hk : Role.ofSegment key = .key
  · have hr := label_of_hasLabels h hk
    rw [if_pos hk]
    cases hg : Fields.get? labels key with
    | some text =>
      rw [hg] at hr
      rw [show r.label key = .ok text from hr]
      rfl
    | none =>
      rw [hg] at hr
      obtain ⟨segment, hn⟩ := hr
      rw [hn]
      rfl
  · rw [if_neg hk]
    cases h with
    | missing hm hl =>
      obtain ⟨segment, hn⟩ := label_of_missing hm hl key
      rw [hn]
      rfl
    | held hl =>
      rw [label_of_ne_key hl hk]
      rfl

/-- **Labels are a map**: a series of calls with keys succeeds, and afterwards every label is the
one that was set last, or the one that was there before. -/
theorem label_of_setLabels {r : Resource} {labels calls : Fields String} (h : r.HasLabels labels)
    (hk : ∀ key ∈ Fields.keys calls, Role.ofSegment key = .key)
    (he : r.ReservedKeysFree labels calls) :
    (r.setLabels calls).result = .ok () ∧
      ∀ key, ((r.setLabels calls).resource.label key).toOption =
        (Fields.get? calls.reverse key).or (r.label key).toOption := by
  obtain ⟨hok, hheld⟩ := setLabels_of_hasLabels h hk he
  refine ⟨hok, fun key => ?_⟩
  rw [toOption_label hheld, toOption_label h, Fields.get?_foldl_insert]
  by_cases hkey : Role.ofSegment key = .key
  · rw [if_pos hkey, if_pos hkey]
  · have hnone : Fields.get? calls.reverse key = none := by
      cases hg : Fields.get? calls.reverse key with
      | none => rfl
      | some text =>
        have hmem : (key, text) ∈ calls := List.mem_reverse.mp (Fields.mem_of_get? hg)
        exact absurd (hk key (List.mem_map_of_mem hmem)) hkey
    rw [if_neg hkey, if_neg hkey, hnone]
    rfl

/-- The record of the labels is made by the first call; the last text set under a key stays. -/
theorem label_of_setLabels_of_none :
    let r := create "web"
    let calls := [("", "a"), ("tier", "front"), ("app.kubernetes.io/name", "b"), ("tier", "back")]
    r.HasLabels [] ∧ (∀ key ∈ Fields.keys calls, Role.ofSegment key = .key) ∧
      r.ReservedKeysFree [] calls ∧ (r.setLabels calls).result = .ok () ∧
      ((r.setLabels calls).resource.label "tier").toOption = some "back" ∧
      ((r.setLabels calls).resource.label "").toOption = some "a" := by
  intro r calls
  have h : r.HasLabels [] := @HasLabels.missing r .plain [("name", string "web")] rfl rfl
  have hk : ∀ key ∈ Fields.keys calls, Role.ofSegment key = .key := by decide
  have he : r.ReservedKeysFree [] calls := by
    intro key hmem hr
    obtain rfl : key = "" := by
      revert key
      decide
    exact Or.inr ⟨rfl, rfl⟩
  obtain ⟨hok, hlabel⟩ := label_of_setLabels h hk he
  refine ⟨h, hk, he, hok, ?_, ?_⟩
  · rw [hlabel]
    rfl
  · rw [hlabel]
    rfl

/-- A text of digits is no key: it cannot be set. -/
theorem setLabel_under_index :
    let r : Resource :=
      ⟨object [("metadata", object [("name", string "web"), ("labels", object [])])]⟩
    r.HasLabels [] ∧ (r.setLabel "1" "x").result = .error (.notAnArray "labels") := by
  intro r
  exact ⟨@HasLabels.held r .plain [] rfl, by rfl⟩

end Resource

end Manifest
