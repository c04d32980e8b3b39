import Manifest.Proofs.Cleaning
import Manifest.Proofs.Update
import Manifest.Resource
import Manifest.Value.Identity

/-!
# The name of a resource

A resource is identified by entries of its metadata: its name, the name to generate one from, and
its namespace (`identifying`).  As long as the metadata is a record with one of the first two
(`Identified`), the resource would be accepted again, and its name and namespace can be set.

What is set below the metadata changes at most the entry that the path goes on under, and the
cleaner of managed members names none of the three.  So an action writes the entry that it is to
write and leaves the others (`perform_metadata`), and after a run there stands what was written last
(`run_metadata`).  The main statement is `identity_of_run`.
-/

namespace Manifest

open Value

namespace Resource

/-! ### What identifies a resource -/

/-- The entries of the metadata that identify a resource. -/
def identifying : List String := ["name", "generateName", "namespace"]

/-- The metadata is a record with a name or a name to generate one from. -/
structure Identified (r : Resource) (kind : RecordKind) (members : Fields Value) : Prop where
  metadata : r.root.at? Path.metadata = some (record kind members)
  named : Fields.contains members "name" = true ∨ Fields.contains members "generateName" = true

theorem ofSegment_of_identifying {key : String} (h : key ∈ identifying) :
    Role.ofSegment key = .key ∧ key ≠ "" ∧ key ≠ prototypeKey := by
  revert key
  decide

section Entries
variable {r : Resource} {kind : RecordKind} {members : Fields Value} {key : String}

theorem resolves_entry (hm : r.root.at? Path.metadata = some (record kind members))
    (hk : Role.ofSegment key = .key) :
    r.root.resolves (Path.metadata ++ [key]) = .ok (Fields.contains members key) := by
  have hat := at?_entry hm hk
  cases hg : Fields.get? members key with
  | some v =>
    rw [hg] at hat
    rw [resolves_eq_ok_true_iff.mpr ⟨v, get_of_at? hat⟩, Fields.contains, hg]
    rfl
  | none =>
    rw [resolves_of_missing_key hm hk hg [], Fields.contains, hg]
    rfl

theorem exists_of_resolves_entry {root : Value} (hk : Role.ofSegment key = .key)
    (h : root.resolves (Path.metadata ++ [key]) = .ok true) :
    ∃ kind members, root.at? Path.metadata = some (record kind members) ∧
      Fields.contains members key = true := by
  obtain ⟨v, hv⟩ := resolves_eq_ok_true_iff.mp h
  have ht : traversal ∉ Path.metadata ++ [key] := by
    rw [List.mem_append, List.mem_singleton, not_or]
    exact ⟨by decide, (Role.ne_traversal_of_key hk).symm⟩
  rw [get_eq_ok_iff_at? ht] at hv
  obtain ⟨container, hc, hv⟩ := at?_concat_eq_some_iff.mp hv
  rcases container_of_child? hv with ⟨items, n, -, hr, -⟩ | ⟨kind, members, rfl, -, hg⟩
  · rw [hk] at hr
    cases hr
  · exact ⟨kind, members, hc, (Fields.contains_eq_true_iff _ _).mpr ⟨v, hg⟩⟩

/-- A record is accepted if one of the two names resolves, the second of which is looked up only
when the first is missing. -/
theorem ofRecord_eq_ok_iff_resolves {root : Value} :
    ofRecord root = .ok r ↔ r = ⟨root⟩ ∧ (root.resolves Path.metadataName = .ok true ∨
      root.resolves Path.metadataName = .ok false ∧
        root.resolves Path.metadataGenerateName = .ok true) := by
  have hr : (⟨root⟩ : Resource) = r ↔ r = ⟨root⟩ := eq_comm
  unfold ofRecord
  cases root.resolves Path.metadataName with
  | error fault => simp [bind, Except.bind]
  | ok named =>
    cases named with
    | true => simp [bind, Except.bind, pure, Except.pure, hr]
    | false =>
      cases root.resolves Path.metadataGenerateName with
      | error fault => simp [bind, Except.bind]
      | ok generated =>
        cases generated <;> simp [bind, Except.bind, pure, Except.pure, hr]

/-- **A record is accepted exactly if it is identified.** -/
theorem ofRecord_eq_ok_iff {root : Value} :
    ofRecord root = .ok r ↔ r = ⟨root⟩ ∧ ∃ kind members, Identified ⟨root⟩ kind members := by
  have hname : Role.ofSegment "name" = .key := by decide
  have hgenerate : Role.ofSegment "generateName" = .key := by decide
  rw [ofRecord_eq_ok_iff_resolves]
  refine and_congr_right fun _ => ⟨?_, ?_⟩
  · rintro (hn | ⟨-, hg⟩)
    · obtain ⟨kind, members, hm, hc⟩ := exists_of_resolves_entry hname hn
      exact ⟨kind, members, hm, Or.inl hc⟩
    · obtain ⟨kind, members, hm, hc⟩ := exists_of_resolves_entry hgenerate hg
      exact ⟨kind, members, hm, Or.inr hc⟩
  · rintro ⟨kind, members, hm, hc⟩
    have hn : root.resolves Path.metadataName = .ok (Fields.contains members "name") :=
      resolves_entry hm hname
    have hg : root.resolves Path.metadataGenerateName =
        .ok (Fields.contains members "generateName") := resolves_entry hm hgenerate
    rw [hn, hg]
    cases hname' : Fields.contains members "name" with
    | true => exact Or.inl rfl
    | false => exact Or.inr ⟨rfl, congrArg _ (hc.resolve_left (by simp [hname']))⟩

theorem optionalString_eq_some_iff {path : Path} (ht : traversal ∉ path) {text : String} :
    r.optionalString path = some text ↔ r.root.at? path = some (string text) := by
  rw [← get_eq_ok_iff_at? ht, optionalString, getString]
  cases r.root.get path with
  | error fault => simp [Except.toOption]
  | ok v => cases v <;> simp [Except.toOption]

end Entries

/-! ### Actions -/

/-- The operations that write a well-known text or remove what the cluster maintains. -/
inductive Action where
  | setName (name : String)
  | setNamespace (name : String)
  | setLabel (key value : String)
  | annotate (key value : String)
  | removeManaged

namespace Action

/-- Carries an action out. -/
def perform : Action → Resource → Step Unit
  | setName name, r => r.setName name
  | setNamespace name, r => r.setNamespace name
  | setLabel key value, r => r.setLabel key value
  | annotate key value, r => setAnnotation r key value
  | removeManaged, r => r.removeManaged

/-- The text that an action is to write under an identifying key. -/
def writes (key : String) : Action → Option String
  | setName name => if key = "name" then some name else none
  | setNamespace name => if key = "namespace" then some name else none
  | _ => none

theorem writes_generateName (a : Action) : a.writes "generateName" = none := by
  cases a <;> rfl

end Action

/-- Carries actions out one after the other, whether or not they fail. -/
def run (r : Resource) (actions : List Action) : Resource :=
  actions.foldl (fun r a => (a.perform r).resource) r

/-- The members have the identifying entries of others, but for a text written over one of them. -/
def Follows (members after : Fields Value) (written : String → Option String) : Prop :=
  ∀ key ∈ identifying,
    Fields.get? after key = ((written key).map string).or (Fields.get? members key)

section Perform
variable {r : Resource} {kind : RecordKind} {members : Fields Value}

theorem Identified.of_follows {s : Resource} {after : Fields Value} {l : RecordKind}
    {written : String → Option String} (h : r.Identified kind members)
    (hm : s.root.at? Path.metadata = some (record l after)) (hf : Follows members after written) :
    s.Identified l after := by
  have hkeep : ∀ key ∈ identifying, Fields.contains members key = true →
      Fields.contains after key = true := by
    intro key hk hc
    obtain ⟨v, hv⟩ := (Fields.contains_eq_true_iff _ _).mp hc
    rw [Fields.contains, hf key hk, hv]
    cases written key <;> rfl
  exact ⟨hm, h.named.imp (hkeep _ (by decide)) (hkeep _ (by decide))⟩

theorem follows_insert (key text : String) :
    Follows members (Fields.insert members key (string text)) fun other =>
      if other = key then some text else none := by
  intro other _
  dsimp only
  by_cases h : other = key
  · subst h
    rw [Fields.get?_insert_self, if_pos rfl, Option.map_some, Option.some_or]
  · rw [Fields.get?_insert_of_ne _ _ h, if_neg h, Option.map_none, Option.none_or]

theorem set_metadata (hm : r.root.at? Path.metadata = some (record kind members)) {key : String}
    (hk : key ∈ identifying) (text : String) :
    (r.set (Path.metadata ++ [key]) (string text)).result = .ok () ∧
      (r.set (Path.metadata ++ [key]) (string text)).resource.root.at? Path.metadata =
        some (record kind (Fields.insert members key (string text))) := by
  obtain ⟨hr, hne, hkp⟩ := ofSegment_of_identifying hk
  unfold set
  rw [set_entry hm hr (fun _ => hne) rfl, assign_of_not_adopts (not_adopts_of_ne _ hkp)]
  exact ⟨rfl, at?_putAt hm _⟩

theorem set_below_metadata (hm : r.root.at? Path.metadata = some (record kind members))
    {key : String} (hk : Role.ofSegment key = .key) (hne : key ≠ "") (hkp : key ≠ prototypeKey)
    (hi : key ∉ identifying) (rest : Path) (text : String) :
    ∃ after, (r.set (Path.metadata ++ key :: rest) (string text)).resource.root.at? Path.metadata =
        some (record kind after) ∧ Follows members after fun _ => none := by
  have hleft : (r.set (Path.metadata ++ key :: rest) (string text)).resource.root =
      (r.root.set (Path.metadata ++ key :: rest) (string text)).2 := by
    unfold set
    split <;> next h => rw [h]
  rw [hleft]
  rcases set_below hm hk hne hkp (show (string text).isDocument = true from rfl) with
    h | ⟨new, h⟩
  · rw [h]
    exact ⟨members, hm, fun _ _ => rfl⟩
  · rw [h, at?_putAt hm]
    refine ⟨_, rfl, fun other ho => ?_⟩
    have hother : other ≠ key := by
      rintro rfl
      exact hi ho
    exact Fields.get?_insert_of_ne _ _ hother

/-- The cleaner of managed members goes on below the metadata, where it names no identifying
entry. -/
theorem exists_managed :
    ∃ c whole, Cleaner.managed = .mk [] [("metadata", c), ("status", whole)] ∧
      whole.removesWhole = true ∧ c.removesWhole = false ∧
        ∀ key ∈ identifying, key ∉ c.fields ∧ key ∉ c.nested.map Prod.fst :=
  ⟨_, _, rfl, rfl, rfl, by decide⟩

theorem removeManaged_metadata (hm : r.root.at? Path.metadata = some (record kind members)) :
    ∃ after, r.removeManaged.resource.root.at? Path.metadata = some (record kind after) ∧
      Follows members after fun _ => none := by
  obtain ⟨c, whole, hmanaged, hwhole, hc, hkeys⟩ := exists_managed
  have hk : Role.ofSegment "metadata" = .key := by decide
  rw [Path.metadata, at?_singleton] at hm
  rcases container_of_child? hm with ⟨items, n, -, hr, -⟩ | ⟨outer, top, hroot, -, hg⟩
  · rw [hk] at hr
    cases hr
  obtain ⟨root⟩ := r
  obtain rfl : root = record outer top := hroot
  refine ⟨(Cleaner.cleanMembers "metadata." c members).1, ?_, fun key hkey => ?_⟩
  · show (Cleaner.managed.clean (record outer top)).1.at? ["metadata"] = _
    rw [Cleaner.clean_record, at?_singleton, child?_record_of_key hk, hmanaged]
    simp only [Cleaner.cleanMembers, Cleaner.eraseFields, List.foldl_nil, Cleaner.cleanNested, hc,
      hg, hwhole, Bool.false_eq_true, if_false, if_true]
    rw [Fields.get?_erase_of_ne _ (by decide), Fields.get?_insert_self]
    rfl
  · obtain ⟨hf, hn⟩ := hkeys key hkey
    exact Cleaner.get?_cleanMembers_of_notMem hf hn _ members

/-- **What an action does to the metadata**: it stays a record of its kind, and the identifying
entries are as before but for the text that the action is to write. -/
theorem perform_metadata (hm : r.root.at? Path.metadata = some (record kind members))
    (a : Action) :
    ∃ after, (a.perform r).resource.root.at? Path.metadata = some (record kind after) ∧
      Follows members after fun key => a.writes key := by
  cases a with
  | setName name =>
    exact ⟨_, (set_metadata hm (by decide) name).2, follows_insert "name" name⟩
  | setNamespace name =>
    exact ⟨_, (set_metadata hm (by decide) name).2, follows_insert "namespace" name⟩
  | setLabel key value =>
    exact set_below_metadata hm (by decide) (by decide) (by decide) (by decide) [key] value
  | annotate key value =>
    exact set_below_metadata hm (by decide) (by decide) (by decide) (by decide) [key] value
  | removeManaged => exact removeManaged_metadata hm

end Perform

/-! ### Runs -/

section Run
variable {r s : Resource} {kind l : RecordKind} {members after : Fields Value}

theorem Follows.trans {last : Fields Value} {first second : String → Option String}
    (h : Follows members after first) (h' : Follows after last second) :
    Follows members last fun key => (second key).or (first key) := by
  intro key hk
  rw [h' key hk, h key hk, Option.map_or, Option.or_assoc]

theorem getLast?_filterMap_cons {α β : Type} (f : α → Option β) (a : α) (rest : List α) :
    ((a :: rest).filterMap f).getLast? = ((rest.filterMap f).getLast?).or (f a) := by
  cases h : f a with
  | none => rw [List.filterMap_cons_none h, Option.or_none]
  | some b =>
    rw [List.filterMap_cons_some h, List.getLast?_cons]
    cases (rest.filterMap f).getLast? <;> rfl

/-- **After a run the identifying entries hold what was written there last**, and are as before if
nothing was. -/
theorem run_metadata (hm : r.root.at? Path.metadata = some (record kind members))
    (actions : List Action) :
    ∃ after, (r.run actions).root.at? Path.metadata = some (record kind after) ∧
      Follows members after fun key => (actions.filterMap (Action.writes key)).getLast? := by
  induction actions generalizing r members with
  | nil => exact ⟨members, hm, fun _ _ => rfl⟩
  | cons a rest ih =>
    obtain ⟨mid, hmid, hfirst⟩ := perform_metadata hm a
    obtain ⟨last, hlast, hrest⟩ := ih hmid
    refine ⟨last, hlast, ?_⟩
    simp only [getLast?_filterMap_cons]
    exact hfirst.trans hrest

theorem optionalString_of_follows (hr : r.root.at? Path.metadata = some (record kind members))
    (hs : s.root.at? Path.metadata = some (record l after)) {written : String → Option String}
    (hf : Follows members after written) {key : String} (hk : key ∈ identifying) :
    s.optionalString (Path.metadata ++ [key]) =
      (written key).or (r.optionalString (Path.metadata ++ [key])) := by
  obtain ⟨hrole, -⟩ := ofSegment_of_identifying hk
  have ht : traversal ∉ Path.metadata ++ [key] := by
    revert key
    decide
  refine Option.ext fun text => ?_
  rw [optionalString_eq_some_iff ht, at?_entry hs hrole, hf key hk]
  cases written key with
  | some other => simp
  | none =>
    rw [Option.map_none, Option.none_or, Option.none_or, optionalString_eq_some_iff ht,
      at?_entry hr hrole]

end Run

/-- **A resource keeps its identity.**  Made from a name or a record that was accepted, it would be
accepted again after any actions, whether or not they fail; its name and its namespace can be set,
and they are those set last, or else those it had at first. -/
theorem identity_of_run {r : Resource}
    (h : (∃ name, r = create name) ∨ ∃ root, ofRecord root = .ok r) (actions : List Action) :
    let s := r.run actions
    ofRecord s.root = .ok s ∧ (∀ name, (s.setName name).result = .ok ()) ∧
      (∀ name, (s.setNamespace name).result = .ok ()) ∧
      s.name = (actions.filterMap (Action.writes "name")).getLast?.getD r.name ∧
      s.nameSpace = (actions.filterMap (Action.writes "namespace")).getLast?.getD r.nameSpace := by
  intro s
  obtain ⟨kind, members, hr⟩ : ∃ kind members, r.Identified kind members := by
    rcases h with ⟨name, rfl⟩ | ⟨root, h⟩
    · exact ⟨.plain, [("name", string name)], rfl, Or.inl rfl⟩
    · obtain ⟨rfl, hi⟩ := ofRecord_eq_ok_iff.mp h
      exact hi
  obtain ⟨after, hs, hf⟩ := run_metadata hr.metadata actions
  have hi : s.Identified kind after := hr.of_follows hs hf
  have hname : s.optionalString Path.metadataName = _ :=
    optionalString_of_follows hr.metadata hs hf (show "name" ∈ identifying by decide)
  have hgenerate : s.optionalString Path.metadataGenerateName =
      r.optionalString Path.metadataGenerateName := by
    have h := optionalString_of_follows hr.metadata hs hf
      (show "generateName" ∈ identifying by decide)
    rwa [List.filterMap_eq_nil_iff.mpr fun a _ => a.writes_generateName, List.getLast?_nil,
      Option.none_or] at h
  have hspace : s.optionalString Path.metadataNamespace = _ :=
    optionalString_of_follows hr.metadata hs hf (show "namespace" ∈ identifying by decide)
  refine ⟨ofRecord_eq_ok_iff.mpr ⟨rfl, kind, after, hi⟩,
    fun name => (set_metadata hs (show "name" ∈ identifying by decide) name).1,
    fun name => (set_metadata hs (show "namespace" ∈ identifying by decide) name).1, ?_, ?_⟩
  · unfold name field
    rw [hname, hgenerate]
    cases (actions.filterMap (Action.writes "name")).getLast? <;> rfl
  · unfold nameSpace field
    rw [hspace]
    cases (actions.filterMap (Action.writes "namespace")).getLast? <;> rfl

/-- Labels that are no record refuse one, and an empty key among the annotations replaces them. -/
theorem identity_of_run_with_failing_calls :
    let r : Resource := ⟨object [("metadata", object [("generateName", string "g-"),
      ("labels", null), ("uid", string "u"), ("annotations", object [("b", string "x")])])]⟩
    let actions : List Action :=
      [.setName "a", .setLabel "-" "x", .removeManaged, .annotate "" "x", .setNamespace "n"]
    let s := r.run actions
    ofRecord r.root = .ok r ∧
      (r.setLabel "-" "x").result = .error (.notTraversable "labels is nil") ∧
      s.root = object [("metadata", object [("generateName", string "g-"), ("labels", null),
        ("annotations", object [("", string "x")]), ("name", string "a"),
        ("namespace", string "n")])] ∧
      ofRecord s.root = .ok s ∧ s.name = "a" ∧ s.nameSpace = "n" := by
  intro r actions s
  have h : ofRecord r.root = .ok r := rfl
  obtain ⟨hs, -, -, hname, hspace⟩ := identity_of_run (Or.inr ⟨r.root, h⟩) actions
  exact ⟨h, by decide +kernel, by decide +kernel, hs, hname, hspace⟩

end Resource

end Manifest
