import Manifest.Proofs.Fingerprint
import Manifest.Proofs.Instances
import Mathlib.Data.List.Lex

/-!
# What has no fingerprint

A fingerprint exists if no unwritable value, which no document text can hold, stands anywhere in the
records and arrays of a document.  Where values stand is told by sequences of hops, and these are
compared lexicographically: the keys of a record by their units and the elements of an array by
position.  `Value.content` runs through the children of a container in this order
(`content_of_container`), so that it fails with the first unwritable value there is
(`content_cases`), and it does not see in which order the members of records are written
(`content_of_reordered`).

The main statement is `hash_refuses_first`.
-/

namespace Manifest

/-- A step from a container to one of its children. -/
inductive Hop where
  | key (k : String)
  | position (n : Nat)

namespace Hop

/-- The order of the children of one container. -/
def Precedes : Hop → Hop → Prop
  | key a, key b => Text.unitsLe a b = true ∧ a ≠ b
  | position m, position n => m < n
  | _, _ => False

theorem Precedes.asymm {a b : Hop} (hab : a.Precedes b) : ¬ b.Precedes a := by
  cases a with
  | key k =>
    cases b with
    | key l => exact fun hba => hab.2 (Text.unitsLe_antisymm k l hab.1 hba.1)
    | position n => exact hab.elim
  | position m =>
    cases b with
    | key l => exact hab.elim
    | position n => exact Nat.lt_asymm hab

instance : Std.Asymm Precedes := ⟨fun _ _ => Precedes.asymm⟩

/-- What stands in front of a child in the text of its container. -/
def label : Hop → String
  | key k => k
  | position _ => ""

/-- The key that a child belongs to, if its container belongs to the given one. -/
def keyBelow (outer : String) : Hop → String
  | key k => k
  | position _ => outer

/-- The nearest key on a way, or the one at which it starts. -/
def nearestKey (outer : String) (place : List Hop) : String := place.foldl keyBelow outer

end Hop

namespace Value

/-! ### Places of values -/

/-- Whether no document text can hold a value, whatever is in it. -/
def isUnwritable : Value → Bool
  | absent => true
  | vacant => true
  | foreign _ => true
  | record kind _ => kind ≠ .plain
  | _ => false

/-- The child of a record or an array. -/
def hop? : Value → Hop → Option Value
  | record .plain members, .key k => Fields.get? members k
  | array items, .position n => items[n]?
  | _, _ => none

/-- The value at the end of a way through records and arrays. -/
def inside? : Value → List Hop → Option Value
  | v, [] => some v
  | v, hop :: rest => (v.hop? hop).bind fun child => child.inside? rest

theorem inside?_nil (v : Value) : v.inside? [] = some v := by
  cases v <;> rfl

theorem inside?_cons (v : Value) (hop : Hop) (rest : List Hop) :
    v.inside? (hop :: rest) = (v.hop? hop).bind fun child => child.inside? rest := by
  cases v <;> rfl

/-- An unwritable value stands at the place, and none at a place before it. -/
structure FirstUnwritable (v : Value) (place : List Hop) (w : Value) : Prop where
  stands : v.inside? place = some w
  unwritable : w.isUnwritable = true
  first : ∀ other x, v.inside? other = some x → x.isUnwritable = true →
    other = place ∨ List.Lex Hop.Precedes place other

theorem FirstUnwritable.unique {v w x : Value} {place other : List Hop}
    (hw : v.FirstUnwritable place w) (hx : v.FirstUnwritable other x) :
    place = other ∧ w = x := by
  have hplace : place = other := by
    rcases hw.first other x hx.stands hx.unwritable with h | h
    · exact h.symm
    · rcases hx.first place w hw.stands hw.unwritable with h' | h'
      · exact h'
      · exact absurd h' (asymm h)
  subst hplace
  exact ⟨rfl, Option.some.inj (hw.stands.symm.trans hx.stands)⟩

mutual

/-- No key stands twice in a record at any depth. -/
def isKeyed : Value → Bool
  | array items => itemsAreKeyed items
  | record _ members => decide (Fields.Distinct members) && membersAreKeyed members
  | _ => true

/-- No key stands twice in a record below any of the items. -/
def itemsAreKeyed : List Value → Bool
  | [] => true
  | v :: rest => isKeyed v && itemsAreKeyed rest

/-- No key stands twice in a record below any of the members. -/
def membersAreKeyed : List (String × Value) → Bool
  | [] => true
  | (_, v) :: rest => isKeyed v && membersAreKeyed rest

end

theorem isKeyed_array {items : List Value} :
    (array items).isKeyed = true ↔ ∀ v ∈ items, v.isKeyed = true := by
  rw [isKeyed]
  induction items with
  | nil => simp [itemsAreKeyed]
  | cons v rest ih => simp [itemsAreKeyed, ih]

theorem isKeyed_record {kind : RecordKind} {members : Fields Value} :
    (record kind members).isKeyed = true ↔
      Fields.Distinct members ∧ ∀ e ∈ members, e.2.isKeyed = true := by
  have hall : membersAreKeyed members = true ↔ ∀ e ∈ members, e.2.isKeyed = true := by
    induction members with
    | nil => simp [membersAreKeyed]
    | cons e rest ih => simp [membersAreKeyed, ih]
  rw [isKeyed, Bool.and_eq_true, decide_eq_true_eq, hall]

/-! ### Children in the order of the fingerprint -/

/-- The children of a record or an array in their order. -/
def children : Value → List (Hop × Value)
  | record .plain members => (Text.sortByUnits members).map fun e => (.key e.1, e.2)
  | array items => items.zipIdx.map fun e => (.position e.2, e.1)
  | _ => []

theorem mem_children {v child : Value} {hop : Hop} (hv : v.isKeyed = true) :
    (hop, child) ∈ v.children ↔ v.hop? hop = some child := by
  cases v with
  | array items =>
    simp only [children, List.mem_map, Prod.mk.injEq, List.mem_zipIdx_iff_getElem?, Prod.exists]
    cases hop with
    | key k => simp [hop?]
    | position n =>
      constructor
      · rintro ⟨x, m, hx, hm, rfl⟩
        cases hm
        exact hx
      · exact fun h => ⟨child, n, h, rfl, rfl⟩
  | record kind members =>
    cases kind with
    | plain =>
      have hd : Fields.Distinct members := (isKeyed_record.mp hv).1
      simp only [children, List.mem_map, Prod.mk.injEq, (Text.sortByUnits_perm members).mem_iff]
      cases hop with
      | position n => simp [hop?]
      | key k =>
        constructor
        · rintro ⟨e, he, hk, rfl⟩
          cases hk
          exact Fields.get?_of_mem hd he
        · exact fun h => ⟨(k, child), Fields.mem_of_get? h, rfl, rfl⟩
    | _ => simp [children, hop?]
  | _ => simp [children, hop?]

theorem pairwise_children {v : Value} (hv : v.isKeyed = true) :
    v.children.Pairwise fun e f => e.1.Precedes f.1 := by
  cases v with
  | array items =>
    rw [children, List.pairwise_map]
    exact pairwise_snd_zipIdx items
  | record kind members =>
    cases kind with
    | plain =>
      have hd : ((Text.sortByUnits members).map Prod.fst).Nodup :=
        ((Text.sortByUnits_perm members).map Prod.fst).nodup_iff.mpr (isKeyed_record.mp hv).1
      rw [children, List.pairwise_map]
      exact (Text.pairwise_sortByUnits members).and (List.pairwise_map.mp hd)
    | _ => exact List.Pairwise.nil
  | _ => exact List.Pairwise.nil

theorem itemContents_eq_joinContents (key : String) (items : List Value) :
    itemContents key items = joinContents (items.map fun v => ("", content key v)) := by
  induction items with
  | nil => rfl
  | cons v rest ih =>
    rw [itemContents, List.map_cons, joinContents, ih]
    simp only [String.empty_append]

/-- **The text of a container** consists of the texts of its children in their order. -/
theorem content_of_container {v : Value} (h : v.isUnwritable = false)
    (hc : v.items? ≠ none ∨ v.members? ≠ none) (key : String) :
    content key v =
      joinContents (v.children.map fun e => (e.1.label, content (e.1.keyBelow key) e.2)) := by
  cases v with
  | array items =>
    rw [content, itemContents_eq_joinContents, children, List.map_map]
    conv_lhs => rw [← List.zipIdx_map_fst 0 items, List.map_map]
    rfl
  | record kind members =>
    have hk : kind = .plain := by simpa [isUnwritable] using h
    subst hk
    rw [content, memberContents_eq_map, Text.sortByUnits_map fun e => content e.1 e.2, children,
      List.map_map]
    rfl
  | _ => simp [items?, members?] at hc

/-! ### The first fault -/

theorem joinContents_cases (l : List (String × Except Fault String)) :
    ((∃ text, joinContents l = .ok text) ∧ ∀ e ∈ l, ∃ s, e.2 = .ok s) ∨
      ∃ before e after fault, l = before ++ e :: after ∧ (∀ b ∈ before, ∃ s, b.2 = .ok s) ∧
        e.2 = .error fault ∧ joinContents l = .error fault := by
  induction l with
  | nil => exact Or.inl ⟨⟨"", rfl⟩, by simp⟩
  | cons first rest ih =>
    obtain ⟨key, content⟩ := first
    cases content with
    | error fault => exact Or.inr ⟨[], _, rest, fault, rfl, by simp, rfl, rfl⟩
    | ok s =>
      rcases ih with ⟨⟨text, ht⟩, hall⟩ | ⟨before, e, after, fault, rfl, hb, he, hf⟩
      · exact Or.inl ⟨⟨key ++ s ++ text, by rw [joinContents, ht]; rfl⟩,
          List.forall_mem_cons.mpr ⟨⟨s, rfl⟩, hall⟩⟩
      · refine Or.inr ⟨(key, .ok s) :: before, e, after, fault, rfl,
          List.forall_mem_cons.mpr ⟨⟨s, rfl⟩, hb⟩, he, ?_⟩
        rw [joinContents, hf]
        rfl

/-- How the text of a value that belongs to a key comes out: it exists and nothing unwritable is in
the value, or it is refused for the first unwritable value. -/
def ContentCases (v : Value) (key : String) : Prop :=
  ((∃ text, content key v = .ok text) ∧
      ∀ place w, v.inside? place = some w → w.isUnwritable = false) ∨
    ∃ place w, v.FirstUnwritable place w ∧
      content key v = .error (.unsupportedHashType (Hop.nearestKey key place) w.typeName)

theorem contentCases_of_no_child {v : Value} (h : ∀ hop, v.hop? hop = none) {key : String}
    (hc : if v.isUnwritable then content key v = .error (.unsupportedHashType key v.typeName)
      else ∃ text, content key v = .ok text) : v.ContentCases key := by
  have hself : ∀ place w, v.inside? place = some w → place = [] ∧ w = v := by
    intro place w hw
    cases place with
    | nil => exact ⟨rfl, (Option.some.inj ((inside?_nil v).symm.trans hw)).symm⟩
    | cons hop rest =>
      rw [inside?_cons, h hop] at hw
      cases hw
  by_cases hu : v.isUnwritable = true
  · rw [if_pos hu] at hc
    exact Or.inr ⟨[], v, ⟨inside?_nil v, hu, fun other x hx _ => Or.inl (hself other x hx).1⟩, hc⟩
  · rw [if_neg hu] at hc
    refine Or.inl ⟨hc, fun place w hw => ?_⟩
    rw [(hself place w hw).2]
    exact Bool.eq_false_iff.mpr hu

section Container
variable {v : Value} (hv : v.isKeyed = true) (h : v.isUnwritable = false)
include hv h

theorem exists_child_of_inside? {place : List Hop} {w : Value} (hw : v.inside? place = some w)
    (hu : w.isUnwritable = true) :
    ∃ hop child rest, place = hop :: rest ∧ (hop, child) ∈ v.children ∧
      child.inside? rest = some w := by
  cases place with
  | nil =>
    rw [inside?_nil, Option.some.injEq] at hw
    rw [← hw, h] at hu
    cases hu
  | cons hop rest =>
    rw [inside?_cons] at hw
    obtain ⟨child, hchild, hrest⟩ := Option.bind_eq_some_iff.mp hw
    exact ⟨hop, child, rest, rfl, (mem_children hv).mpr hchild, hrest⟩

/-- The first unwritable value of a child is the first of the container if there is none in the
children in front. -/
theorem FirstUnwritable.of_child {front behind : List (Hop × Value)} {hop : Hop} {child w : Value}
    {place : List Hop} (hsplit : v.children = front ++ (hop, child) :: behind)
    (hfront : ∀ e ∈ front, ∀ rest x, e.2.inside? rest = some x → x.isUnwritable = false)
    (hw : child.FirstUnwritable place w) : v.FirstUnwritable (hop :: place) w where
  stands := by
    have hmem : (hop, child) ∈ v.children := by rw [hsplit]; simp
    rw [inside?_cons, (mem_children hv).mp hmem]
    exact hw.stands
  unwritable := hw.unwritable
  first := by
    intro other x hx hu
    obtain ⟨hop', child', rest, rfl, hmem, hrest⟩ := exists_child_of_inside? hv h hx hu
    have hpair := pairwise_children hv
    rw [hsplit] at hmem hpair
    rcases List.mem_append.mp hmem with hin | hin
    · rw [hfront _ hin rest x hrest] at hu
      cases hu
    · rcases List.mem_cons.mp hin with heq | hbehind
      · cases heq
        rcases hw.first rest x hrest hu with rfl | hlex
        · exact Or.inl rfl
        · exact Or.inr (.cons hlex)
      · have hlater := (List.pairwise_append.mp hpair).2.1
        exact Or.inr (.rel (List.rel_of_pairwise_cons hlater hbehind))

/-- A container is refused for the first child that is. -/
theorem contentCases_of_children (hc : v.items? ≠ none ∨ v.members? ≠ none)
    (ih : ∀ e ∈ v.children, ∀ key, e.2.ContentCases key) (key : String) : v.ContentCases key := by
  have hjoin := content_of_container h hc key
  -- Nothing unwritable is in a child that has a text.
  have hclear : ∀ e ∈ v.children, (∃ s, content (e.1.keyBelow key) e.2 = .ok s) →
      ∀ rest w, e.2.inside? rest = some w → w.isUnwritable = false := by
    rintro e he ⟨s, hs⟩
    rcases ih e he (e.1.keyBelow key) with ⟨-, hnone⟩ | ⟨place, w, -, herr⟩
    · exact hnone
    · rw [hs] at herr
      cases herr
  rcases joinContents_cases (v.children.map fun e => (e.1.label, content (e.1.keyBelow key) e.2))
    with ⟨htext, hall⟩ | ⟨before, e, after, fault, hsplit, hbefore, he, hfault⟩
  · refine Or.inl ⟨hjoin ▸ htext, fun place w hw => ?_⟩
    by_contra hu
    obtain ⟨hop, child, rest, rfl, hmem, hrest⟩ :=
      exists_child_of_inside? hv h hw ((Bool.not_eq_false _).mp hu)
    exact hu (hclear (hop, child) hmem (List.forall_mem_map.mp hall _ hmem) rest w hrest)
  · obtain ⟨front, back, hfb, rfl, hback⟩ := List.map_eq_append_iff.mp hsplit
    obtain ⟨⟨hop, child⟩, behind, rfl, rfl, rfl⟩ := List.map_eq_cons_iff.mp hback
    have hmem : (hop, child) ∈ v.children := by rw [hfb]; simp
    rcases ih _ hmem (hop.keyBelow key) with ⟨⟨s, hs⟩, -⟩ | ⟨place, w, hfirst, herr⟩
    · rw [hs] at he
      cases he
    · refine Or.inr ⟨hop :: place, w, .of_child hv h hfb (fun e hin => ?_) hfirst, ?_⟩
      · exact hclear e (hfb ▸ List.mem_append_left _ hin) (List.forall_mem_map.mp hbefore e hin)
      · rw [hjoin, hfault, ← he, herr]
        rfl

end Container

/-- **The text of a value is refused for the first unwritable value in it**, and for nothing
else. -/
theorem content_cases {v : Value} (hv : v.isKeyed = true) (key : String) : v.ContentCases key := by
  induction v using nodeInduction generalizing key with
  | array items ih =>
    refine contentCases_of_children hv rfl (Or.inl nofun) (fun e he key => ?_) key
    have hmem : e.2 ∈ items := by
      obtain ⟨x, hx, rfl⟩ := List.mem_map.mp he
      exact List.mem_of_getElem? (List.mem_zipIdx_iff_getElem?.mp hx)
    exact ih e.2 hmem (isKeyed_array.mp hv e.2 hmem) key
  | record kind members ih =>
    cases kind with
    | plain =>
      refine contentCases_of_children hv rfl (Or.inr nofun) (fun e he key => ?_) key
      obtain ⟨x, hx, rfl⟩ := List.mem_map.mp he
      have hmem := (Text.sortByUnits_perm members).mem_iff.mp hx
      exact ih x hmem ((isKeyed_record.mp hv).2 x hmem) key
    | _ => exact contentCases_of_no_child (fun hop => by cases hop <;> rfl) (by rfl)
  | absent | vacant | foreign f =>
    exact contentCases_of_no_child (fun hop => by cases hop <;> rfl) (by rfl)
  | null | bool b | number n | string s =>
    exact contentCases_of_no_child (fun hop => by cases hop <;> rfl) ⟨_, rfl⟩

/-! ### The order of writing -/

/-- The second document is the first with the members of records, at any depth, written in another
order. -/
inductive Reordered : Value → Value → Prop where
  | refl (v : Value) : Reordered v v
  | trans {u v w : Value} : Reordered u v → Reordered v w → Reordered u w
  /-- The members of a record change places. -/
  | members (kind : RecordKind) {members others : Fields Value} :
      members.Perm others → Reordered (record kind members) (record kind others)
  /-- Something changes below a member. -/
  | member (kind : RecordKind) (before after : Fields Value) (key : String) {v w : Value} :
      Reordered v w →
        Reordered (record kind (before ++ (key, v) :: after))
          (record kind (before ++ (key, w) :: after))
  /-- Something changes below an element. -/
  | element (before after : List Value) {v w : Value} :
      Reordered v w → Reordered (array (before ++ v :: after)) (array (before ++ w :: after))

theorem isKeyed_of_reordered {v w : Value} (h : Reordered v w) (hv : v.isKeyed = true) :
    w.isKeyed = true := by
  induction h with
  | refl v => exact hv
  | trans _ _ ihv ihw => exact ihw (ihv hv)
  | members kind hp =>
    obtain ⟨hd, hall⟩ := isKeyed_record.mp hv
    exact isKeyed_record.mpr ⟨(hp.map Prod.fst).nodup_iff.mp hd,
      fun e he => hall e (hp.mem_iff.mpr he)⟩
  | member kind before after key _ ih =>
    obtain ⟨hd, hall⟩ := isKeyed_record.mp hv
    simp only [List.forall_mem_append, List.forall_mem_cons] at hall
    refine isKeyed_record.mpr ⟨by simpa [Fields.Distinct, Fields.keys] using hd, ?_⟩
    simp only [List.forall_mem_append, List.forall_mem_cons]
    exact ⟨hall.1, ih hall.2.1, hall.2.2⟩
  | element before after _ ih =>
    have hall := isKeyed_array.mp hv
    simp only [List.forall_mem_append, List.forall_mem_cons] at hall
    refine isKeyed_array.mpr ?_
    simp only [List.forall_mem_append, List.forall_mem_cons]
    exact ⟨hall.1, ih hall.2.1, hall.2.2⟩

/-- **The order in which members are written does not matter** for the text of a document, nor for
the fault if it has none. -/
theorem content_of_reordered {v w : Value} (h : Reordered v w) (hv : v.isKeyed = true)
    (key : String) : content key v = content key w := by
  induction h generalizing key with
  | refl v => rfl
  | trans huv _ ihv ihw => rw [ihv hv, ihw (isKeyed_of_reordered huv hv)]
  | @members kind members others hp =>
    cases kind with
    | plain =>
      have hsorted : Text.sortByUnits members = Text.sortByUnits others := by
        have hd : Fields.Distinct (Text.sortByUnits others) :=
          ((hp.trans (Text.sortByUnits_perm others).symm).map Prod.fst).nodup_iff.mp
            (isKeyed_record.mp hv).1
        exact Fields.sortByUnits_eq_of_perm (hp.trans (Text.sortByUnits_perm others).symm) hd
          (Text.pairwise_sortByUnits others)
      rw [content, content, memberContents_eq_map, memberContents_eq_map,
        Text.sortByUnits_map fun e => content e.1 e.2,
        Text.sortByUnits_map fun e => content e.1 e.2, hsorted]
    | _ => rfl
  | @member kind before after k v w _ ih =>
    have hall := (isKeyed_record.mp hv).2
    simp only [List.forall_mem_append, List.forall_mem_cons] at hall
    cases kind with
    | plain =>
      rw [content, content, memberContents_eq_map, memberContents_eq_map, List.map_append,
        List.map_append, List.map_cons, List.map_cons, ih hall.2.1]
    | _ => rfl
  | @element before after v w _ ih =>
    have hall := isKeyed_array.mp hv
    simp only [List.forall_mem_append, List.forall_mem_cons] at hall
    rw [content, content, itemContents_eq_joinContents, itemContents_eq_joinContents,
      List.map_append, List.map_append, List.map_cons, List.map_cons, ih hall.2.1]

/-! ### Documents without a fingerprint -/

theorem hash_object (members : Fields Value) :
    (object members).hash =
      (content "" (object members)).map fun text => ofBytes (digestBytes text) := by
  rw [content]
  rfl

/-- **What has no fingerprint**: a record does not have one exactly if an unwritable value stands
somewhere in its records and arrays.  The fault names the type of the first of them, with the keys
of a record in the order of their units and the elements of an array by position, and the nearest
key above it.  It does not depend on the order in which the members of records are written. -/
theorem hash_refuses_first {members : Fields Value} (h : (object members).isKeyed = true) :
    let root := object members
    ((∃ key type, root.hash = .error (.unsupportedHashType key type)) ↔
        ∃ place v, root.inside? place = some v ∧ v.isUnwritable = true) ∧
      (∀ fault, root.hash = .error fault ↔ ∃ place v, root.FirstUnwritable place v ∧
        fault = .unsupportedHashType (Hop.nearestKey "" place) v.typeName) ∧
      ∀ others, Reordered root (object others) → (object others).hash = root.hash := by
  intro root
  have hhash : root.hash = (content "" root).map fun text => ofBytes (digestBytes text) :=
    hash_object members
  have hothers : ∀ others, Reordered root (object others) → (object others).hash = root.hash := by
    intro others hr
    rw [hhash, hash_object, content_of_reordered hr h]
  rcases content_cases h "" with ⟨⟨text, htext⟩, hnone⟩ | ⟨place, v, hfirst, herr⟩
  · have hok : root.hash = .ok (ofBytes (digestBytes text)) := by rw [hhash, htext]; rfl
    refine ⟨⟨?_, ?_⟩, fun fault => ⟨?_, ?_⟩, hothers⟩
    · rintro ⟨key, type, he⟩
      rw [hok] at he
      cases he
    · rintro ⟨place, v, hv, hu⟩
      rw [hnone place v hv] at hu
      cases hu
    · intro he
      rw [hok] at he
      cases he
    · rintro ⟨place, v, hfirst, -⟩
      have hu := hfirst.unwritable
      rw [hnone place v hfirst.stands] at hu
      cases hu
  · have hfault : root.hash =
        .error (.unsupportedHashType (Hop.nearestKey "" place) v.typeName) := by
      rw [hhash, herr]
      rfl
    refine ⟨⟨fun _ => ⟨place, v, hfirst.stands, hfirst.unwritable⟩, fun _ => ⟨_, _, hfault⟩⟩,
      fun fault => ⟨fun he => ?_, ?_⟩, hothers⟩
    · rw [hfault, Except.error.injEq] at he
      exact ⟨place, v, hfirst, he.symm⟩
    · rintro ⟨place', v', hfirst', rfl⟩
      obtain ⟨rfl, rfl⟩ := hfirst.unique hfirst'
      exact hfault

/-- Of a function in an array of an array and a date before it in the text the function counts, as
its key comes first by units; so it does when the members are written the other way round. -/
theorem hash_refuses_first_of_nested :
    let date := record (.instanceOf "Date") []
    let members : Fields Value := [("\uffff", date), ("a", array [null]),
      ("😀", array [bool true, array [foreign .function]])]
    (object members).isKeyed = true ∧
      (∃ place v, (object members).FirstUnwritable place v ∧
        Fault.unsupportedHashType "😀" "function" =
          .unsupportedHashType (Hop.nearestKey "" place) v.typeName) ∧
      Reordered (object members) (object members.reverse) ∧
      (object members.reverse).hash = (object members).hash := by
  intro date members
  have h : (object members).isKeyed = true := by decide
  have hr : Reordered (object members) (object members.reverse) :=
    .members .plain (List.reverse_perm members).symm
  have hf : (object members).hash = .error (.unsupportedHashType "😀" "function") := by
    have hkeys : ["a", "😀", "\uffff"].Nodup := by decide
    have hsorted : ["a", "😀", "\uffff"].Pairwise (Text.unitsLe · ·) := by decide
    have horder : Text.sortByUnits (memberContents members) =
        memberContents (members.tail ++ [("\uffff", date)]) :=
      Fields.sortByUnits_eq_of_perm (List.perm_append_singleton _ _).symm hkeys
        ((List.pairwise_map (R := (Text.unitsLe · ·)) (f := Prod.fst)).mp hsorted)
    rw [hash_object, content, horder]
    rfl
  exact ⟨h, ((hash_refuses_first h).2.1 _).mp hf, hr, (hash_refuses_first h).2.2 _ hr⟩

end Value

end Manifest
