import Manifest.Proofs.Fingerprint
import Manifest.Proofs.Rows

/-!
# What the fingerprint tells apart

The text that a fingerprint is taken from puts keys and scalars next to each other, with nothing
between them (`Value.pieces`).  So it does not show where one ends and the next begins, nor how they
are put together to arrays and records or of which type they are (`fingerprint_of_collision`).

Documents are `Value.Discernible` if their pieces do not run into each other in the sense of
`Text.Confusable` and if, should they be the same, they make up documents of one shape.  The main
statement is `sameBy_of_fingerprintBytes`: such documents with the same bytes are the same when their
numbers are rounded to six decimals.
-/

namespace Manifest

namespace Value

/-! ### Pieces -/

mutual

/-- The texts that are put next to each other for a document: its keys and scalars, with the members
of every record in the order of their keys. -/
def pieces : Value → List String
  | array items => itemPieces items
  | record _ members => (Text.sortByUnits (memberPieces members)).flatMap fun e => e.1 :: e.2
  | v => [v.plainText]

/-- The pieces of elements one after the other. -/
def itemPieces : List Value → List String
  | [] => []
  | v :: rest => pieces v ++ itemPieces rest

/-- The pieces of members under their keys. -/
def memberPieces : List (String × Value) → List (String × List String)
  | [] => []
  | (key, v) :: rest => (key, pieces v) :: memberPieces rest

end

theorem pieces_array (items : List Value) : (array items).pieces = items.flatMap pieces := by
  rw [pieces]
  induction items with
  | nil => rfl
  | cons v rest ih => rw [itemPieces, ih, List.flatMap_cons]

theorem pieces_record (kind : RecordKind) (members : Fields Value) :
    (record kind members).pieces =
      (Text.sortByUnits members).flatMap fun e => e.1 :: e.2.pieces := by
  have hmap : memberPieces members = members.map fun e => (e.1, e.2.pieces) := by
    induction members with
    | nil => rfl
    | cons e rest ih => rw [memberPieces, ih, List.map_cons]
  rw [pieces, hmap, Text.sortByUnits_map fun e : String × Value => e.2.pieces, List.flatMap_map]

/-- **The text of a document joins its pieces.** -/
theorem plainText_eq_join {v : Value} (hv : v.isDocument = true) :
    v.plainText = String.join v.pieces := by
  induction v using nodeInduction with
  | array items ih =>
    rw [plainText_array hv, pieces_array]
    refine (Text.join_flatMap fun v hmem => ?_).symm
    exact ih v hmem (isDocument_array.mp hv v hmem)
  | record kind members ih =>
    obtain ⟨rfl, -, hall⟩ := isDocument_record.mp hv
    rw [plainText_object hv, pieces_record]
    refine (Text.join_flatMap fun e hmem => ?_).symm
    have he := (Text.sortByUnits_perm members).mem_iff.mp hmem
    rw [String.join_cons, ih e he (hall e he)]
  | _ => rw [pieces, Text.join_singleton] <;> simp

/-! ### Documents of one shape -/

/-- Two documents have one shape: they have values of the same types at the same places, where the
members of records are counted in the order of their keys. -/
inductive SameShape : Value → Value → Prop
  | null : SameShape null null
  | bool (a b : Bool) : SameShape (bool a) (bool b)
  | number (x y : Number) : SameShape (number x) (number y)
  | string (s t : String) : SameShape (string s) (string t)
  | array {items others : List Value} : List.Forall₂ SameShape items others →
      SameShape (array items) (array others)
  | record {members others : Fields Value} :
      List.Forall₂ SameShape ((Text.sortByUnits members).map Prod.snd)
        ((Text.sortByUnits others).map Prod.snd) →
      SameShape (object members) (object others)

/-- Where two rows begin the same texts, `P` holds and the same texts follow. -/
def Decodes (s t : List String) (P : Prop) : Prop :=
  ∀ r r' : List String, s ++ r = t ++ r' → P ∧ r = r'

section Decodes
variable {s t : List String} {P Q : Prop}

theorem Decodes.imp (h : Decodes s t P) (hpq : P → Q) : Decodes s t Q :=
  fun r r' heq => (h r r' heq).imp_left hpq

theorem decodes_singleton (x y : String) : Decodes [x] [y] (x = y) :=
  fun _ _ heq => List.cons.inj heq

theorem Decodes.cons (h : Decodes s t P) (x y : String) :
    Decodes (x :: s) (y :: t) (x = y ∧ P) := by
  intro r r' heq
  obtain ⟨hxy, hrest⟩ := List.cons.inj heq
  obtain ⟨hp, hr⟩ := h r r' hrest
  exact ⟨⟨hxy, hp⟩, hr⟩

theorem decodes_flatMap {α β : Type} {f : α → List String} {g : β → List String}
    {R : α → β → Prop} {l : List α} {m : List β}
    (h : List.Forall₂ (fun x y => Decodes (f x) (g y) (R x y)) l m) :
    Decodes (l.flatMap f) (m.flatMap g) (List.Forall₂ R l m) := by
  induction h with
  | nil => exact fun r r' heq => ⟨.nil, heq⟩
  | cons hxy _ ih =>
    intro r r' heq
    rw [List.flatMap_cons, List.flatMap_cons, List.append_assoc, List.append_assoc] at heq
    obtain ⟨hr, hrest⟩ := hxy _ _ heq
    obtain ⟨hall, hend⟩ := ih _ _ hrest
    exact ⟨.cons hr hall, hend⟩

end Decodes

/-- Whether two numbers are one when they are rounded to six decimals. -/
def sameRounded (x y : Number) : Bool := x.rounded = y.rounded

/-- **Documents of one shape can be read back from their pieces.** -/
theorem decodes_pieces {v w : Value} (hv : v.isDocument = true) (hw : w.isDocument = true)
    (h : SameShape v w) : Decodes v.pieces w.pieces (v.sameBy sameRounded w = true) := by
  induction v using nodeInduction generalizing w with
  | absent => cases hv
  | vacant => cases hv
  | foreign f => cases hv
  | null =>
    cases h
    exact (decodes_singleton _ _).imp fun _ => rfl
  | bool a =>
    cases h with
    | bool a b =>
      refine (decodes_singleton _ _).imp fun heq => ?_
      cases a <;> cases b <;> first | rfl | exact absurd heq (by decide)
  | string s =>
    cases h with
    | string s t => exact (decodes_singleton _ _).imp fun heq => beq_iff_eq.mpr heq
  | number x =>
    cases h with
    | number x y =>
      exact (decodes_singleton _ _).imp fun heq =>
        decide_eq_true (Number.rounded_eq_of_fixedText heq)
  | array items ih =>
    cases h with
    | @array _ others hall =>
      rw [pieces_array, pieces_array]
      refine (decodes_flatMap ?_).imp sameBy_array_iff.mpr
      refine Fields.forall₂_imp_of_mem hall fun x hx y hy hxy => ?_
      exact ih x hx (isDocument_array.mp hv x hx) (isDocument_array.mp hw y hy) hxy
  | record kind members ih =>
    obtain ⟨rfl, hm, hmembers⟩ := isDocument_record.mp hv
    cases h with
    | @record _ others hall =>
      obtain ⟨-, ho, hothers⟩ := isDocument_record.mp hw
      rw [pieces_record, pieces_record]
      rw [List.forall₂_map_left_iff, List.forall₂_map_right_iff] at hall
      refine (decodes_flatMap ?_).imp (sameBy_object_iff hm ho).mpr
      refine Fields.forall₂_imp_of_mem hall fun e he f hf hef => ?_
      have hem := (Text.sortByUnits_perm members).mem_iff.mp he
      have hfo := (Text.sortByUnits_perm others).mem_iff.mp hf
      exact (ih e hem (hmembers e hem) (hothers f hfo) hef).cons e.1 f.1

/-! ### Documents with the same bytes -/

/-- Two documents can be told apart by their bytes: their pieces do not run into each other, and the
same pieces make up the same shape. -/
structure Discernible (v w : Value) : Prop where
  told : ¬ Text.Confusable v.pieces w.pieces
  shape : v.pieces = w.pieces → SameShape v w

section Bytes
variable {a b : Fields Value} (ha : (object a).isDocument = true)
  (hb : (object b).isDocument = true)
include ha hb

theorem join_pieces_of_fingerprintBytes
    (heq : (object a).fingerprintBytes = (object b).fingerprintBytes) :
    String.join (object a).pieces = String.join (object b).pieces := by
  rw [fingerprintBytes, fingerprintText_object ha, fingerprintBytes,
    fingerprintText_object hb] at heq
  rw [← plainText_eq_join ha, ← plainText_eq_join hb]
  exact String.toByteArray_inj.mp (Except.ok.inj heq)

/-- **What the fingerprint tells apart**: discernible documents with the same bytes are the same when
their numbers are rounded to six decimals. -/
theorem sameBy_of_fingerprintBytes (h : Discernible (object a) (object b))
    (heq : (object a).fingerprintBytes = (object b).fingerprintBytes) :
    (object a).sameBy sameRounded (object b) = true := by
  have hpieces : (object a).pieces = (object b).pieces :=
    (Text.eq_or_confusable (join_pieces_of_fingerprintBytes ha hb heq)).resolve_right h.told
  exact (decodes_pieces ha hb (h.shape hpieces) [] [] (by rw [hpieces])).1

/-- **One key or text that differs is seen.** -/
theorem fingerprintBytes_ne_of_single {front back : List String} {x y : String}
    (hpa : (object a).pieces = front ++ x :: back) (hpb : (object b).pieces = front ++ y :: back)
    (hne : x ≠ y) : (object a).fingerprintBytes ≠ (object b).fingerprintBytes := by
  intro heq
  have hjoin := join_pieces_of_fingerprintBytes ha hb heq
  rw [hpa, hpb] at hjoin
  rcases Text.eq_or_confusable hjoin with hsame | hconf
  · exact hne (List.cons.inj (List.append_cancel_left hsame)).1
  · exact Text.not_confusable_of_single front x y back hconf

end Bytes

/-- Two numbers decide where they are the first to differ, unless one of them is huge. -/
theorem not_confusable_of_numbers {front s t : List String} {x y : Number} (hx : x.kind ≠ .huge)
    (hy : y.kind ≠ .huge) (hne : x.fixedText ≠ y.fixedText) :
    ¬ Text.Confusable (front ++ x.fixedText :: s) (front ++ y.fixedText :: t) :=
  Text.not_confusable_of_apart (Number.apart_fixedText hx hy) hne

/-- Numbers that differ behind the sixth decimal only, in records of another order. -/
theorem sameBy_of_fingerprintBytes_of_close :
    let a := [("a", array [number ⟨0x3ff0000000000000⟩, null]), ("b", string "x")]
    let b := [("b", string "x"), ("a", array [number ⟨0x3ff0000000000001⟩, null])]
    (object a).isDocument = true ∧ (object b).isDocument = true ∧
      Discernible (object a) (object b) ∧
      (object a).fingerprintBytes = (object b).fingerprintBytes ∧
      (object a).sameBy sameRounded (object b) = true := by
  intro a b
  have ha : (object a).isDocument = true := by decide
  have hb : (object b).isDocument = true := by decide
  have hsa : Text.sortByUnits a = a :=
    Fields.sortByUnits_eq_of_perm (List.Perm.refl a) (by decide) (by decide)
  have hsb : Text.sortByUnits b = [("a", array [number ⟨0x3ff0000000000001⟩, null]),
      ("b", string "x")] :=
    Fields.sortByUnits_eq_of_perm (List.Perm.swap _ _ _) (by decide) (by decide)
  have hpieces : (object a).pieces = (object b).pieces := by
    rw [pieces_record, pieces_record, hsa, hsb]
    decide +kernel
  have hshape : SameShape (object a) (object b) := by
    refine .record ?_
    rw [hsa, hsb]
    exact .cons (.array (.cons (.number _ _) (.cons .null .nil))) (.cons (.string _ _) .nil)
  have h : Discernible (object a) (object b) := ⟨fun hc => hc.1 hpieces, fun _ => hshape⟩
  have heq : (object a).fingerprintBytes = (object b).fingerprintBytes := by
    rw [fingerprintBytes, fingerprintBytes, fingerprintText_object ha, fingerprintText_object hb,
      plainText_eq_join ha, plainText_eq_join hb, hpieces]
  exact ⟨ha, hb, h, heq, sameBy_of_fingerprintBytes ha hb h heq⟩

/-- A key runs into its value, and an element into the next: the bytes do not show where one of them
ends. -/
theorem fingerprint_of_collision :
    let a := object [("ab", string "c")]
    let b := object [("a", string "bc")]
    let c := object [("k", array [string "x", string "xx"])]
    let d := object [("k", array [string "xx", string "x"])]
    (a.fingerprintBytes = b.fingerprintBytes ∧ a.sameBy sameRounded b = false) ∧
      c.fingerprintBytes = d.fingerprintBytes ∧ c.sameBy sameRounded d = false := by
  intro a b c d
  have hone : ∀ (key : String) (v : Value), (object [(key, v)]).fingerprintBytes =
      (joinContents [(key, content key v)]).map String.toUTF8 := by
    intro key v
    have hsort : Text.sortByUnits [(key, v)] = [(key, v)] := List.mergeSort_singleton _
    rw [fingerprintBytes, fingerprintText_eq, entries, hsort]
    rfl
  rw [hone, hone, hone, hone]
  decide +kernel

end Value

end Manifest
