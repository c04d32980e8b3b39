import Manifest.Proofs.Content
import Manifest.Selector
import Mathlib.Data.List.Forall2
import Mathlib.Data.Set.List

/-!
# Records that write label selectors

What a record has to look like to be read as a label selector is said twice here, each time without
the reader: `Selector.IsSelector` by the types of its entries, and `Selector.Writes` with the
selector that it writes.  `Selector.offences` lists all entries of the wrong kind in order, whereas
the reader stops at one.

A reader is sound for such a list and such a relation if it gives exactly what is written when the
list is empty and names its first entry when it is not (`Reading`).  Readings put together one after
the other are readings again (`Reading.bind`), which carries over from texts to the whole selector
(`reading_ofValue`).  The main statement is `ofValue_reads`.
-/

namespace Manifest

namespace Fields

variable {α : Type} {m n : Fields α}

/-! ### Order of enumeration -/

/-- The entries whose keys write a position, with these positions. -/
def positioned (m : Fields α) : List (Nat × String × α) :=
  m.filterMap fun e => (position? e.1).map fun n => (n, e)

theorem enumerate_eq (m : Fields α) :
    enumerate m = ((positioned m).mergeSort fun a b => a.1 ≤ b.1).map Prod.snd ++
      m.filter fun e => (position? e.1).isNone := rfl

theorem map_snd_positioned (m : Fields α) :
    (positioned m).map Prod.snd = m.filter fun e => (position? e.1).isSome := by
  induction m with
  | nil => rfl
  | cons e rest ih =>
    unfold positioned at ih ⊢
    cases h : position? e.1 <;> simp [h, ih]

theorem enumerate_perm (m : Fields α) : (enumerate m).Perm m := by
  have hsome : ((positioned m).mergeSort fun a b => a.1 ≤ b.1).map Prod.snd |>.Perm
      (m.filter fun e => (position? e.1).isSome) := by
    rw [← map_snd_positioned]
    exact (List.mergeSort_perm _ _).map Prod.snd
  have hsplit := List.filter_append_perm (fun e : String × α => (position? e.1).isSome) m
  have hnone : (fun e : String × α => !(position? e.1).isSome) =
      fun e => (position? e.1).isNone := by
    funext e
    cases position? e.1 <;> rfl
  rw [hnone] at hsplit
  rw [enumerate_eq]
  exact (hsome.append_right _).trans hsplit

/-- **Entries in the order of enumeration are enumerated as they stand.** -/
theorem enumerate_enumerate (m : Fields α) : enumerate (enumerate m) = enumerate m := by
  have hposition : ∀ x ∈ (positioned m).mergeSort (fun a b => a.1 ≤ b.1),
      position? x.2.1 = some x.1 := by
    intro x hx
    obtain ⟨e, -, he⟩ := List.mem_filterMap.mp ((List.mergeSort_perm _ _).mem_iff.mp hx)
    obtain ⟨n, hn, rfl⟩ := Option.map_eq_some_iff.mp he
    exact hn
  have hsorted : ((positioned m).mergeSort fun a b => a.1 ≤ b.1).Pairwise
      fun a b => decide (a.1 ≤ b.1) = true :=
    List.pairwise_mergeSort (fun a b c hab hbc => by simp at hab hbc ⊢; omega)
      (fun a b => by simp; omega) _
  rw [enumerate_eq m]
  generalize (positioned m).mergeSort (fun a b => a.1 ≤ b.1) = sorted at hposition hsorted
  have hfront : positioned (sorted.map Prod.snd) = sorted := by
    rw [positioned, List.filterMap_map]
    refine (List.filterMap_congr fun x hx => ?_).trans List.filterMap_some
    simp [hposition x hx]
  have hrest : positioned (m.filter fun e => (position? e.1).isNone) = [] := by
    refine List.filterMap_eq_nil_iff.mpr fun e he => ?_
    rw [Option.isNone_iff_eq_none.mp (List.mem_filter.mp he).2, Option.map_none]
  have hnone : (sorted.map Prod.snd).filter (fun e => (position? e.1).isNone) = [] := by
    refine List.filter_eq_nil_iff.mpr fun e he => ?_
    obtain ⟨x, hx, rfl⟩ := List.mem_map.mp he
    simp [hposition x hx]
  have hpositioned : positioned (sorted.map Prod.snd ++
      m.filter fun e => (position? e.1).isNone) = sorted := by
    rw [positioned, List.filterMap_append, ← positioned, ← positioned, hfront, hrest,
      List.append_nil]
  rw [enumerate_eq, hpositioned, List.mergeSort_of_pairwise hsorted, List.filter_append, hnone,
    List.nil_append, List.filter_filter]
  simp only [Bool.and_self]

theorem get?_of_perm (hp : m.Perm n) (hm : Distinct m) (key : String) :
    get? m key = get? n key := by
  have hn : Distinct n := (hp.map Prod.fst).nodup_iff.mp hm
  refine Option.ext fun v => ⟨fun h => ?_, fun h => ?_⟩
  · exact get?_of_mem hn (hp.mem_iff.mp (mem_of_get? h))
  · exact get?_of_mem hm (hp.mem_iff.mpr (mem_of_get? h))

theorem get?_enumerate (hm : Distinct m) (key : String) :
    get? (enumerate m) key = get? m key :=
  (get?_of_perm (enumerate_perm m).symm hm key).symm

end Fields

namespace Relation

theorem ofText?_eq_some_iff {s : String} {r : Relation} : ofText? s = some r ↔ s = r.text := by
  constructor
  · intro h
    have hr := List.find?_some h
    exact (of_decide_eq_true hr).symm
  · rintro rfl
    cases r <;> decide

end Relation

namespace Selector

open Value

/-! ### What is written -/

/-- A text. -/
def IsText (v : Value) : Prop := ∃ s, v = string s

/-- A record of texts. -/
def IsLabels (v : Value) : Prop := ∃ m, v = object m ∧ ∀ e ∈ m, IsText e.2

/-- A list of values of a kind. -/
def IsList (kind : Value → Prop) (v : Value) : Prop :=
  ∃ items, v = array items ∧ ∀ x ∈ items, kind x

/-- Nothing, or a value of a kind. -/
def AbsentOr (kind : Value → Prop) (o : Option Value) : Prop := ∀ v, o = some v → kind v

/-- A record with a key, an operator and, unless they are absent, values. -/
def IsRequirement (v : Value) : Prop :=
  ∃ m, v = object m ∧ (∃ s, Fields.get? m "key" = some (string s)) ∧
    (∃ s ∈ ["In", "NotIn", "Exists", "DoesNotExist"],
      Fields.get? m "operator" = some (string s)) ∧
    AbsentOr (IsList IsText) (Fields.get? m "values")

/-- The members of a record that is read as a label selector. -/
def IsSelector (m : Fields Value) : Prop :=
  isStructured (object m) = false ∧ IsLabels (object m) ∨
    isStructured (object m) = true ∧ AbsentOr IsLabels (Fields.get? m "matchLabels") ∧
      AbsentOr (IsList IsRequirement) (Fields.get? m "matchExpressions")

section Writing
variable {α : Type}

/-- A list writes what its elements write. -/
def WritesList (writes : Value → α → Prop) (v : Value) (l : List α) : Prop :=
  ∃ items, v = array items ∧ List.Forall₂ writes items l

/-- Nothing, which stands for an empty list, or a value that writes something. -/
def WritesOr (writes : Value → List α → Prop) (o : Option Value) (l : List α) : Prop :=
  match o with
  | none => l = []
  | some v => writes v l

end Writing

/-- A record writes labels, which stand in the order of its enumeration. -/
def WritesLabels (v : Value) (l : Fields String) : Prop :=
  ∃ m, v = object m ∧ Fields.mapValues string l = Fields.enumerate m

/-- A record writes a requirement. -/
def WritesRequirement (v : Value) (r : Requirement) : Prop :=
  ∃ m, v = object m ∧ Fields.get? m "key" = some (string r.key) ∧
    Fields.get? m "operator" = some (string r.relation.text) ∧
    WritesOr (WritesList fun x s => x = string s) (Fields.get? m "values") r.values

/-- The members of a record write a selector. -/
def Writes (m : Fields Value) (s : Selector) : Prop :=
  if isStructured (object m) then
    WritesOr WritesLabels (Fields.get? m "matchLabels") s.matchLabels ∧
      WritesOr (WritesList WritesRequirement) (Fields.get? m "matchExpressions")
        s.matchExpressions
  else WritesLabels (object m) s.matchLabels ∧ s.matchExpressions = []

/-! ### What is wrong -/

/-- An entry of the wrong kind and what is wrong with it. -/
abbrev Offence := List String × SelectorIssue

/-- A value that is no text. -/
def textOffences (place : List String) : Value → List Offence
  | .string _ => []
  | v => [(place, mismatch "string" v)]

/-- A value that is no operator. -/
def relationOffences (place : List String) : Value → List Offence
  | .string s =>
    if s ∈ ["In", "NotIn", "Exists", "DoesNotExist"] then []
    else [(place, .notAmong Relation.alternatives s)]
  | v => [(place, mismatch Relation.alternatives v)]

/-- A value that is no list, or what is wrong with its elements one after the other. -/
def listOffences (wrong : List String → Value → List Offence) (place : List String) :
    Value → List Offence
  | .absent => []
  | .array items => items.zipIdx.flatMap fun e => wrong (place ++ [indexSegment e.2]) e.1
  | v => [(place, mismatch "array" v)]

/-- Members that are no texts, in the order of enumeration. -/
def memberOffences (place : List String) (m : Fields Value) : List Offence :=
  (Fields.enumerate m).flatMap fun e => textOffences (place ++ [e.1]) e.2

/-- A value that is no record, or what is wrong with its members. -/
def recordOffences (wrong : Fields Value → List Offence) (place : List String) :
    Value → List Offence
  | .record .plain m => wrong m
  | v => [(place, mismatch "object" v)]

/-- What is wrong with a requirement: its key, its operator, its values. -/
def requirementOffences (place : List String) : Value → List Offence :=
  recordOffences (fun m =>
    textOffences (place ++ ["key"]) (entry m "key") ++
      relationOffences (place ++ ["operator"]) (entry m "operator") ++
      listOffences textOffences (place ++ ["values"]) (entry m "values")) place

/-- What is wrong with labels, which may be absent. -/
def labelsOffences (place : List String) : Value → List Offence
  | .absent => []
  | v => recordOffences (memberOffences place) place v

/-- What is wrong with a selector: its labels, its requirements. -/
def offences (m : Fields Value) : List Offence :=
  if isStructured (object m) then
    labelsOffences ["selector", "matchLabels"] (entry m "matchLabels") ++
      listOffences requirementOffences ["selector", "matchExpressions"]
        (entry m "matchExpressions")
  else memberOffences ["selector"] m

/-! ### Readings -/

/-- The result of reading something is sound: with nothing wrong it is the one thing that is
written, and otherwise nothing is written and it is the first of what is wrong. -/
inductive Reading {α : Type} (result : Except Fault α) (wrong : List Offence)
    (written : α → Prop) : Prop where
  | taken (a : α) (hr : result = .ok a) (hw : wrong = []) (hs : ∀ b, written b ↔ b = a)
  | refused (first : Offence) (rest : List Offence)
      (hr : result = .error (.labelSelector first.1 first.2)) (hw : wrong = first :: rest)
      (hs : ∀ b, ¬ written b)

namespace Reading

variable {α β : Type} {result : Except Fault α} {wrong : List Offence} {written written' : α → Prop}

theorem congr (h : Reading result wrong written) (hs : ∀ a, written a ↔ written' a) :
    Reading result wrong written' := by
  cases h with
  | taken a hr hw hwritten => exact .taken a hr hw fun b => (hs b).symm.trans (hwritten b)
  | refused first rest hr hw hwritten =>
    exact .refused first rest hr hw fun b hb => hwritten b ((hs b).mpr hb)

theorem pure (a : α) : Reading (.ok a) [] fun b => b = a := .taken a rfl rfl fun _ => Iff.rfl

theorem bind {f : α → Except Fault β} {more : List Offence} {written₂ : α → β → Prop}
    (h : Reading result wrong written) (hf : ∀ a, written a → Reading (f a) more (written₂ a)) :
    Reading (result >>= f) (wrong ++ more) fun b => ∃ a, written a ∧ written₂ a b := by
  cases h with
  | refused first rest hr hw hs =>
    rw [hr, hw]
    exact .refused first (rest ++ more) rfl rfl fun b ⟨a, ha, _⟩ => hs a ha
  | taken a hr hw hs =>
    have hone : ∀ b, (∃ a, written a ∧ written₂ a b) ↔ written₂ a b := by
      intro b
      constructor
      · rintro ⟨a', ha, hb⟩
        rw [(hs a').mp ha] at hb
        exact hb
      · exact fun hb => ⟨a, (hs a).mpr rfl, hb⟩
    rw [hr, hw, List.nil_append]
    exact (hf a ((hs a).mpr rfl)).congr fun b => (hone b).symm

theorem map (f : α → β) (h : Reading result wrong written) :
    Reading (result.map f) wrong fun b => ∃ a, written a ∧ b = f a := by
  cases h with
  | refused first rest hr hw hs =>
    rw [hr, hw]
    exact .refused first rest rfl rfl fun b ⟨a, ha, _⟩ => hs a ha
  | taken a hr hw hs =>
    rw [hr, hw]
    refine .taken (f a) rfl rfl fun b => ⟨?_, fun hb => ⟨a, (hs a).mpr rfl, hb⟩⟩
    rintro ⟨a', ha, rfl⟩
    rw [(hs a').mp ha]

theorem ok_iff (h : Reading result wrong written) {a : α} : result = .ok a ↔ written a := by
  cases h with
  | taken b hr hw hs =>
    rw [hr, hs, Except.ok.injEq]
    exact eq_comm
  | refused first rest hr hw hs =>
    rw [hr]
    exact ⟨nofun, fun ha => absurd ha (hs a)⟩

theorem error_iff (h : Reading result wrong written) {fault : Fault} :
    result = .error fault ↔
      ∃ first rest, wrong = first :: rest ∧ fault = .labelSelector first.1 first.2 := by
  cases h with
  | taken a hr hw hs =>
    rw [hr, hw]
    exact ⟨nofun, nofun⟩
  | refused first rest hr hw hs =>
    rw [hr, hw, Except.error.injEq]
    constructor
    · rintro rfl
      exact ⟨first, rest, rfl, rfl⟩
    · rintro ⟨first', rest', he, rfl⟩
      rw [(List.cons.inj he).1]

end Reading

/-! ### The readers -/

theorem reading_text (place : List String) (v : Value) :
    Reading (text place v) (textOffences place v) fun s => v = string s := by
  cases v with
  | string s =>
    refine .taken s rfl rfl fun b => ?_
    rw [Value.string.injEq]
    exact eq_comm
  | _ => exact .refused _ [] rfl rfl fun _ he => by cases he

theorem mem_texts_iff {s : String} :
    s ∈ ["In", "NotIn", "Exists", "DoesNotExist"] ↔ ∃ r : Relation, s = r.text := by
  constructor
  · intro h
    simp only [List.mem_cons, List.not_mem_nil, or_false] at h
    rcases h with rfl | rfl | rfl | rfl
    · exact ⟨.isIn, rfl⟩
    · exact ⟨.isNotIn, rfl⟩
    · exact ⟨.isPresent, rfl⟩
    · exact ⟨.isMissing, rfl⟩
  · rintro ⟨r, rfl⟩
    cases r <;> decide

theorem reading_relation (place : List String) (v : Value) :
    Reading (relation place v) (relationOffences place v) fun r => v = string r.text := by
  cases v with
  | string s =>
    rw [relation, relationOffences]
    cases h : Relation.ofText? s with
    | some r =>
      have hs : s = r.text := Relation.ofText?_eq_some_iff.mp h
      rw [if_pos (mem_texts_iff.mpr ⟨r, hs⟩)]
      refine .taken r rfl rfl fun b => ?_
      rw [Value.string.injEq, ← Relation.ofText?_eq_some_iff, h, Option.some.injEq]
      exact eq_comm
    | none =>
      have hs : ∀ r : Relation, s ≠ r.text := fun r hr => by
        rw [Relation.ofText?_eq_some_iff.mpr hr] at h
        cases h
      rw [if_neg fun hmem => (mem_texts_iff.mp hmem).elim hs]
      exact .refused _ [] rfl rfl fun r hr => hs r (Value.string.inj hr)
  | _ => exact .refused _ [] rfl rfl fun _ he => by cases he

theorem reading_textMembers (place : List String) (m : Fields Value) :
    Reading (textMembers place m) (m.flatMap fun e => textOffences (place ++ [e.1]) e.2)
      fun l => Fields.mapValues string l = m := by
  induction m with
  | nil =>
    refine .taken [] rfl rfl fun l => ?_
    simp [Fields.mapValues]
  | cons e rest ih =>
    obtain ⟨key, v⟩ := e
    have h := (reading_text (place ++ [key]) v).bind
      (f := fun s => textMembers place rest >>= fun more => .ok ((key, s) :: more))
      fun s _ => ih.bind (f := fun more => .ok ((key, s) :: more)) fun more _ =>
        .pure ((key, s) :: more)
    rw [List.append_nil] at h
    refine h.congr fun l => ?_
    constructor
    · rintro ⟨s, rfl, more, rfl, rfl⟩
      rfl
    · intro hl
      cases l with
      | nil => cases hl
      | cons first more =>
        obtain ⟨hfirst, hmore⟩ := List.cons.inj hl
        obtain ⟨hkey, hv⟩ := Prod.mk.inj hfirst
        exact ⟨first.2, hv.symm, more, hmore, by rw [← hkey]⟩

section Elements
variable {α : Type} {read : List String → Value → Except Fault α}
  {wrong : List String → Value → List Offence} {written : Value → α → Prop} {items : List Value}
  (hread : ∀ x ∈ items, ∀ place, Reading (read place x) (wrong place x) (written x))
include hread

theorem reading_elements (place : List String) (position : Nat) :
    Reading (elements read place position items)
      ((items.zipIdx position).flatMap fun e => wrong (place ++ [indexSegment e.2]) e.1)
      (List.Forall₂ written items) := by
  induction items generalizing position with
  | nil =>
    refine .taken [] rfl rfl fun l => ?_
    rw [List.forall₂_nil_left_iff]
  | cons x rest ih =>
    obtain ⟨hx, hrest⟩ := List.forall_mem_cons.mp hread
    have h := (hx (place ++ [indexSegment position])).bind
      (f := fun a => elements read place (position + 1) rest >>= fun more => .ok (a :: more))
      fun a _ => (ih hrest (position + 1)).bind (f := fun more => .ok (a :: more)) fun more _ =>
        .pure (a :: more)
    rw [List.append_nil] at h
    refine h.congr fun l => ?_
    rw [List.forall₂_cons_left_iff]
    constructor
    · rintro ⟨a, ha, more, hmore, rfl⟩
      exact ⟨a, more, ha, hmore, rfl⟩
    · rintro ⟨a, more, ha, hmore, rfl⟩
      exact ⟨a, ha, more, hmore, rfl⟩

end Elements

section Entries
variable {m : Fields Value} {key : String}

theorem entry_eq_string_iff {s : String} :
    entry m key = string s ↔ Fields.get? m key = some (string s) := by
  unfold entry
  cases Fields.get? m key <;> simp

variable (h : (object m).isDocument = true)
include h

theorem entry_enumerate (key : String) : entry (Fields.enumerate m) key = entry m key := by
  rw [entry, entry, Fields.get?_enumerate (isDocument_record.mp h).2.1]

theorem isDocument_of_get? {v : Value} (hv : Fields.get? m key = some v) : v.isDocument = true :=
  (isDocument_record.mp h).2.2 (key, v) (Fields.mem_of_get? hv)

theorem reading_entry {α : Type} {read : Value → Except Fault (List α)}
    {wrong : Value → List Offence} {written : Value → List α → Prop} (key : String)
    (hnone : read absent = .ok []) (hclear : wrong absent = [])
    (hread : ∀ v : Value, v.isDocument = true → Reading (read v) (wrong v) (written v)) :
    Reading (read (entry m key)) (wrong (entry m key)) (WritesOr written (Fields.get? m key)) := by
  rw [entry]
  cases hv : Fields.get? m key with
  | none => exact .taken [] hnone hclear fun _ => Iff.rfl
  | some v => exact hread v (isDocument_of_get? h hv)

end Entries

theorem reading_list {α : Type} {read : List String → Value → Except Fault α}
    {wrong : List String → Value → List Offence} {written : Value → α → Prop}
    (hread : ∀ x : Value, x.isDocument = true → ∀ place,
      Reading (read place x) (wrong place x) (written x))
    (place : List String) {v : Value} (h : v.isDocument = true) :
    Reading (list read place v) (listOffences wrong place v) (WritesList written v) := by
  cases v with
  | array items =>
    refine (reading_elements (fun x hx => hread x (isDocument_array.mp h x hx)) place 0).congr
      fun l => ?_
    constructor
    · exact fun hl => ⟨items, rfl, hl⟩
    · rintro ⟨_, he, hl⟩
      cases he
      exact hl
  | absent => cases h
  | _ => exact .refused _ [] rfl rfl fun _ ⟨_, he, _⟩ => nomatch he

theorem reading_record {α : Type} {v : Value} (h : v.isDocument = true)
    {read : Fields Value → Except Fault α} {wrong : Fields Value → List Offence}
    {written : Fields Value → α → Prop} (place : List String)
    (hread : ∀ m, (object m).isDocument = true →
      Reading (read (Fields.enumerate m)) (wrong m) (written m)) :
    Reading (members place v >>= read) (recordOffences wrong place v)
      fun a => ∃ m, v = object m ∧ written m a := by
  cases v with
  | record kind m =>
    obtain rfl := (isDocument_record.mp h).1
    refine (hread m h).congr fun a => ?_
    constructor
    · exact fun ha => ⟨m, rfl, ha⟩
    · rintro ⟨_, he, ha⟩
      cases he
      exact ha
  | _ => exact .refused _ [] rfl rfl fun _ ⟨_, he, _⟩ => nomatch he

theorem reading_labels {v : Value} (h : v.isDocument = true) (place : List String) :
    Reading (labels place v) (recordOffences (memberOffences place) place v) (WritesLabels v) :=
  reading_record h place fun m _ => reading_textMembers place (Fields.enumerate m)

theorem reading_requirement {v : Value} (h : v.isDocument = true) (place : List String) :
    Reading (requirement place v) (requirementOffences place v) (WritesRequirement v) := by
  refine reading_record h place fun m hm => ?_
  simp only [entry_enumerate hm]
  have hall := (reading_text (place ++ ["key"]) (entry m "key")).bind fun key _ =>
    (reading_relation (place ++ ["operator"]) (entry m "operator")).bind fun relation _ =>
      (reading_entry hm "values" rfl rfl fun _ => reading_list (fun x _ => (reading_text · x))
        (place ++ ["values"])).bind fun values _ => .pure (Requirement.mk key relation values)
  rw [List.append_nil, ← List.append_assoc] at hall
  refine hall.congr fun r => ?_
  simp only [entry_eq_string_iff]
  constructor
  · rintro ⟨key, hkey, relation, hrelation, values, hvalues, rfl⟩
    exact ⟨hkey, hrelation, hvalues⟩
  · rintro ⟨hkey, hrelation, hvalues⟩
    exact ⟨r.key, hkey, r.relation, hrelation, r.values, hvalues, rfl⟩

/-- Reads labels, which may be absent. -/
def labelsIfAny (place : List String) : Value → Except Fault (Fields String)
  | .absent => .ok []
  | v => labels place v

theorem structured_object (place : List String) (m : Fields Value) :
    structured place (object m) = (do
      let l ← labelsIfAny (place ++ ["matchLabels"]) (entry (Fields.enumerate m) "matchLabels")
      let rs ← list requirement (place ++ ["matchExpressions"])
        (entry (Fields.enumerate m) "matchExpressions")
      return ⟨l, rs⟩) := by
  have hm : members place (object m) = .ok (Fields.enumerate m) := rfl
  simp only [structured, hm, bind, Except.bind]
  cases entry (Fields.enumerate m) "matchLabels" <;> rfl

theorem reading_labelsIfAny {v : Value} (h : v.isDocument = true) (place : List String) :
    Reading (labelsIfAny place v) (labelsOffences place v) (WritesLabels v) := by
  cases v with
  | absent => cases h
  | _ => exact reading_labels h place

/-- **A record is read as the selector that it writes, or its first offence is named.** -/
theorem reading_ofValue {m : Fields Value} (h : (object m).isDocument = true) :
    Reading (ofValue (object m)) (offences m) (Writes m) := by
  unfold ofValue offences Writes
  by_cases hs : isStructured (object m)
  · simp only [if_pos hs, structured_object, entry_enumerate h]
    have hlabels := reading_entry h "matchLabels" rfl rfl fun _ hv =>
      reading_labelsIfAny hv ["selector", "matchLabels"]
    have hrequirements := reading_entry h "matchExpressions" rfl rfl fun _ =>
      reading_list (fun x hx => reading_requirement hx) ["selector", "matchExpressions"]
    have hall := hlabels.bind fun l _ => hrequirements.bind fun rs _ => .pure (Selector.mk l rs)
    rw [List.append_nil] at hall
    refine hall.congr fun s => ?_
    constructor
    · rintro ⟨l, hl, rs, hrs, rfl⟩
      exact ⟨hl, hrs⟩
    · rintro ⟨hl, hrs⟩
      exact ⟨s.matchLabels, hl, s.matchExpressions, hrs, rfl⟩
  · simp only [if_neg hs]
    refine ((reading_labels h ["selector"]).map (Selector.mk · [])).congr fun s => ?_
    constructor
    · rintro ⟨l, hl, rfl⟩
      exact ⟨hl, rfl⟩
    · rintro ⟨hl, hrs⟩
      exact ⟨s.matchLabels, hl, by rw [← hrs]⟩

/-! ### Which records write a selector -/

section Existence
variable {α : Type} {kind : Value → Prop}

theorem exists_writesList_iff {writes : Value → α → Prop} (hk : ∀ x, kind x ↔ ∃ a, writes x a)
    (v : Value) : IsList kind v ↔ ∃ l, WritesList writes v l := by
  have hall : ∀ items : List Value, (∀ x ∈ items, kind x) ↔ ∃ l, List.Forall₂ writes items l := by
    intro items
    induction items with
    | nil => exact ⟨fun _ => ⟨[], .nil⟩, fun _ => nofun⟩
    | cons x rest ih =>
      rw [List.forall_mem_cons, hk, ih]
      constructor
      · rintro ⟨⟨a, ha⟩, l, hl⟩
        exact ⟨a :: l, .cons ha hl⟩
      · rintro ⟨l, hl⟩
        obtain ⟨a, more, ha, hmore, rfl⟩ := List.forall₂_cons_left_iff.mp hl
        exact ⟨⟨a, ha⟩, more, hmore⟩
  constructor
  · rintro ⟨items, rfl, hitems⟩
    obtain ⟨l, hl⟩ := (hall items).mp hitems
    exact ⟨l, items, rfl, hl⟩
  · rintro ⟨l, items, rfl, hl⟩
    exact ⟨items, rfl, (hall items).mpr ⟨l, hl⟩⟩

theorem exists_writesOr_iff {writes : Value → List α → Prop}
    (hk : ∀ v, kind v ↔ ∃ l, writes v l) (o : Option Value) :
    AbsentOr kind o ↔ ∃ l, WritesOr writes o l := by
  cases o with
  | none => exact ⟨fun _ => ⟨[], rfl⟩, fun _ => nofun⟩
  | some v =>
    rw [AbsentOr]
    exact ⟨fun h => (hk v).mp (h v rfl), fun h w hw => Option.some.inj hw ▸ (hk v).mpr h⟩

end Existence

theorem exists_writesLabels_iff (v : Value) : IsLabels v ↔ ∃ l, WritesLabels v l := by
  have htext : ∀ e : String × Value,
      IsText e.2 ↔ e ∈ Set.range fun e : String × String => (e.1, string e.2) := by
    rintro ⟨key, v⟩
    constructor
    · rintro ⟨s, rfl⟩
      exact ⟨(key, s), rfl⟩
    · rintro ⟨e, he⟩
      cases he
      exact ⟨e.2, rfl⟩
  have hmembers : ∀ m : Fields Value, (∀ e ∈ m, IsText e.2) ↔
      ∃ l, Fields.mapValues string l = Fields.enumerate m := by
    intro m
    simp only [htext, ← (Fields.enumerate_perm m).mem_iff]
    exact (Set.ext_iff.mp (Set.range_list_map _) (Fields.enumerate m)).symm
  constructor
  · rintro ⟨m, rfl, hm⟩
    obtain ⟨l, hl⟩ := (hmembers m).mp hm
    exact ⟨l, m, rfl, hl⟩
  · rintro ⟨l, m, rfl, hl⟩
    exact ⟨m, rfl, (hmembers m).mpr ⟨l, hl⟩⟩

theorem exists_writesRequirement_iff (v : Value) :
    IsRequirement v ↔ ∃ r, WritesRequirement v r := by
  have hvalues := exists_writesOr_iff (exists_writesList_iff fun x => (Iff.rfl : IsText x ↔ _))
  constructor
  · rintro ⟨m, rfl, ⟨key, hkey⟩, ⟨s, hs, hrelation⟩, hv⟩
    obtain ⟨relation, rfl⟩ := mem_texts_iff.mp hs
    obtain ⟨values, hv⟩ := (hvalues _).mp hv
    exact ⟨⟨key, relation, values⟩, m, rfl, hkey, hrelation, hv⟩
  · rintro ⟨r, m, rfl, hkey, hrelation, hv⟩
    exact ⟨m, rfl, ⟨r.key, hkey⟩, ⟨r.relation.text, mem_texts_iff.mpr ⟨_, rfl⟩, hrelation⟩,
      (hvalues _).mpr ⟨_, hv⟩⟩

section Members
variable {m : Fields Value} {s : Selector}

theorem writes_of_structured (hs : isStructured (object m) = true) : Writes m s ↔
    WritesOr WritesLabels (Fields.get? m "matchLabels") s.matchLabels ∧
      WritesOr (WritesList WritesRequirement) (Fields.get? m "matchExpressions")
        s.matchExpressions := by
  rw [Writes, if_pos hs]

theorem writes_of_not_structured (hs : isStructured (object m) = false) :
    Writes m s ↔ WritesLabels (object m) s.matchLabels ∧ s.matchExpressions = [] := by
  rw [Writes, hs, if_neg Bool.false_ne_true]

theorem exists_writes_iff : IsSelector m ↔ ∃ s, Writes m s := by
  have hlabels := exists_writesOr_iff exists_writesLabels_iff
  have hrequirements := exists_writesOr_iff (exists_writesList_iff exists_writesRequirement_iff)
  rw [IsSelector]
  cases hs : isStructured (object m) with
  | true =>
    simp only [writes_of_structured hs, hlabels, hrequirements]
    constructor
    · rintro (⟨hn, -⟩ | ⟨-, ⟨l, hl⟩, rs, hrs⟩)
      · cases hn
      · exact ⟨⟨l, rs⟩, hl, hrs⟩
    · rintro ⟨s, hl, hrs⟩
      exact .inr ⟨trivial, ⟨_, hl⟩, _, hrs⟩
  | false =>
    simp only [writes_of_not_structured hs, exists_writesLabels_iff]
    constructor
    · rintro (⟨-, l, hl⟩ | ⟨hn, -⟩)
      · exact ⟨⟨l, []⟩, hl, rfl⟩
      · cases hn
    · rintro ⟨s, hl, -⟩
      exact .inl ⟨trivial, _, hl⟩

/-! ### Writing what was read -/

theorem writesLabels_mapValues {v : Value} {l : Fields String} (hv : v.isDocument = true)
    (h : WritesLabels v l) : WritesLabels (object (Fields.mapValues string l)) l ∧
      (object (Fields.mapValues string l)).isDocument = true := by
  obtain ⟨m, rfl, hl⟩ := h
  obtain ⟨-, hm, hd⟩ := isDocument_record.mp hv
  have hp := Fields.enumerate_perm m
  refine ⟨⟨_, rfl, by rw [hl, Fields.enumerate_enumerate]⟩, ?_⟩
  rw [hl]
  exact isDocument_record.mpr
    ⟨rfl, (hp.map Prod.fst).nodup_iff.mpr hm, fun e he => hd e (hp.mem_iff.mp he)⟩

theorem writesRequirement_ofRequirement (r : Requirement) :
    WritesRequirement (ofRequirement r) r := by
  refine ⟨_, rfl, rfl, rfl, r.values.map string, rfl, ?_⟩
  rw [List.forall₂_map_left_iff]
  exact List.forall₂_same.mpr fun _ _ => rfl

theorem isDocument_ofRequirement (r : Requirement) : (ofRequirement r).isDocument = true := by
  have hvalues : (ofTexts r.values).isDocument = true := by
    refine isDocument_array.mpr fun v hv => ?_
    obtain ⟨s, -, rfl⟩ := List.mem_map.mp hv
    rfl
  have hkeys : ["key", "operator", "values"].Nodup := by decide
  refine isDocument_record.mpr ⟨rfl, hkeys, ?_⟩
  simp [hvalues, isDocument]

theorem exists_writes_toValue (hm : (object m).isDocument = true) (h : Writes m s) :
    ∃ n, toValue s = object n ∧ (object n).isDocument = true ∧ Writes n s := by
  have hlabels : WritesLabels (object (Fields.mapValues string s.matchLabels)) s.matchLabels ∧
      (object (Fields.mapValues string s.matchLabels)).isDocument = true := by
    cases hs : isStructured (object m) with
    | true =>
      have hl := ((writes_of_structured hs).mp h).1
      cases hv : Fields.get? m "matchLabels" with
      | none =>
        rw [hv] at hl
        rw [show s.matchLabels = [] from hl]
        exact ⟨⟨[], rfl, (Fields.enumerate_perm []).eq_nil.symm⟩, rfl⟩
      | some v =>
        rw [hv] at hl
        exact writesLabels_mapValues (isDocument_of_get? hm hv) hl
    | false => exact writesLabels_mapValues hm ((writes_of_not_structured hs).mp h).1
  have hrequirements : (array (s.matchExpressions.map ofRequirement)).isDocument = true := by
    refine isDocument_array.mpr fun v hv => ?_
    obtain ⟨r, -, rfl⟩ := List.mem_map.mp hv
    exact isDocument_ofRequirement r
  have hkeys : ["matchLabels", "matchExpressions"].Nodup := by decide
  refine ⟨_, rfl, isDocument_record.mpr ⟨rfl, hkeys, ?_⟩, (writes_of_structured rfl).mpr
    ⟨hlabels.1, s.matchExpressions.map ofRequirement, rfl, ?_⟩⟩
  · simp [hlabels.2, hrequirements]
  · rw [List.forall₂_map_left_iff]
    exact List.forall₂_same.mpr fun r _ => writesRequirement_ofRequirement r

/-! ### The reader of label selectors -/

/-- **A record is read as a label selector if and only if it is one**, either a record of labels
with neither `matchLabels` nor `matchExpressions`, or a record with at least one of them whose
labels and requirements are well-formed.  It is read as the selector that it writes, the written
form of this is read as the same again, and a record that is not a selector is refused for the first
of its offences. -/
theorem ofValue_reads (h : (object m).isDocument = true) :
    ((∃ s, ofValue (object m) = .ok s) ↔ IsSelector m) ∧
    (∀ s, ofValue (object m) = .ok s ↔ Writes m s) ∧
    (∀ s, ofValue (object m) = .ok s → ofValue (toValue s) = .ok s) ∧
    ∀ fault, ofValue (object m) = .error fault ↔
      ∃ first rest, offences m = first :: rest ∧ fault = .labelSelector first.1 first.2 := by
  have hread := reading_ofValue h
  refine ⟨?_, fun s => hread.ok_iff, fun s hs => ?_, fun fault => hread.error_iff⟩
  · rw [exists_writes_iff]
    exact exists_congr fun s => hread.ok_iff
  · obtain ⟨n, hn, hd, hw⟩ := exists_writes_toValue h (hread.ok_iff.mp hs)
    rw [hn]
    exact (reading_ofValue hd).ok_iff.mpr hw

/-- Labels and requirements with several offences, the first of which stands last: the requirements
are written before the labels, and the label under a position after another. -/
theorem ofValue_reads_of_offences :
    let m : Fields Value := [
      ("matchExpressions", array [
        object [("operator", string "Within"), ("values", array [null])],
        string "tier"]),
      ("matchLabels", object [("app", null), ("9", array [])])]
    (object m).isDocument = true ∧ ¬ IsSelector m ∧ ofValue (object m) =
      .error (.labelSelector ["selector", "matchLabels", "9"] (.wrongType "string" "array")) := by
  intro m
  have hm : (object m).isDocument = true := by decide
  have horder : Fields.enumerate [("app", null), ("9", array [])] =
      [("9", array []), ("app", null)] := by
    have h9 : Fields.position? "9" = some 9 := by decide
    have happ : Fields.position? "app" = none := by decide
    simp [Fields.enumerate, h9, happ]
  have hfirst : ∃ rest, offences m =
      (["selector", "matchLabels", "9"], .wrongType "string" "array") :: rest := by
    have hlabels : labelsOffences ["selector", "matchLabels"] (entry m "matchLabels") =
        memberOffences ["selector", "matchLabels"] [("app", null), ("9", array [])] := rfl
    have hs : isStructured (object m) = true := rfl
    rw [offences, if_pos hs, hlabels, memberOffences, horder]
    exact ⟨_, rfl⟩
  obtain ⟨rest, hrest⟩ := hfirst
  obtain ⟨haccepted, -, -, hrefused⟩ := ofValue_reads hm
  have hfault := (hrefused _).mpr ⟨_, rest, hrest, rfl⟩
  refine ⟨hm, fun hs => ?_, hfault⟩
  obtain ⟨s, hs⟩ := haccepted.mpr hs
  cases hfault.symm.trans hs

/-- That its labels and its requirements are well-formed or absent does not make a record a
selector: one with neither is read as labels. -/
theorem ofValue_refuses_absent_parts :
    let m : Fields Value := [("a", null)]
    ¬ ((∃ s, ofValue (object m) = .ok s) ↔
      isStructured (object m) = false ∧ IsLabels (object m) ∨
        AbsentOr IsLabels (Fields.get? m "matchLabels") ∧
          AbsentOr (IsList IsRequirement) (Fields.get? m "matchExpressions")) := by
  intro m h
  have hfault : ofValue (object m) =
      .error (.labelSelector ["selector", "a"] (.wrongType "string" "null")) := by
    have horder : Fields.enumerate m = m := List.perm_singleton.mp (Fields.enumerate_perm m)
    show (textMembers ["selector"] (Fields.enumerate m)).map _ = _
    rw [horder]
    rfl
  obtain ⟨s, hs⟩ := h.mpr (.inr ⟨nofun, nofun⟩)
  cases hfault.symm.trans hs

end Members

end Selector

end Manifest
