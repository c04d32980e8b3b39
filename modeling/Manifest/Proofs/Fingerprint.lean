import Manifest.Fingerprint
import Manifest.Proofs.Sameness
import Manifest.Value.Identity

/-!
# What the fingerprint looks at

The bytes that the fingerprint of a document is taken from are those of `Value.plainText`: keys and
scalars one after the other, with the members of every record in the order of their keys.  The main
statement is `fingerprint_of_same`: documents of the same content have one fingerprint.
-/

namespace Manifest

namespace Value

/-- The bytes that go into the digest. -/
def fingerprintBytes (v : Value) : Except Fault ByteArray := v.fingerprintText.map String.toUTF8

/-- The text of a document, which does not depend on the key it belongs to. -/
def plainText (v : Value) : String := (content "" v).toOption.getD ""

/-! ### The text of a document -/

section Text
variable {items : List Value} {members : Fields Value}

theorem itemContents_of_content {key : String}
    (h : ∀ v ∈ items, content key v = .ok v.plainText) :
    itemContents key items = .ok (String.join (items.map plainText)) := by
  induction items with
  | nil => rfl
  | cons v rest ih =>
    obtain ⟨hv, hrest⟩ := List.forall_mem_cons.mp h
    rw [itemContents, hv, ih hrest, List.map_cons, String.join_cons]
    rfl

theorem memberContents_eq_map :
    memberContents members = members.map fun e => (e.1, content e.1 e.2) := by
  induction members with
  | nil => rfl
  | cons e rest ih => rw [memberContents, ih, List.map_cons]

theorem fingerprintText_eq (v : Value) :
    v.fingerprintText =
      joinContents ((Text.sortByUnits v.entries).map fun e => (e.1, content e.1 e.2)) := by
  rw [fingerprintText, memberContents_eq_map, Text.sortByUnits_map fun e => content e.1 e.2]

theorem joinContents_of_content (h : ∀ e ∈ members, content e.1 e.2 = .ok e.2.plainText) :
    joinContents (members.map fun e => (e.1, content e.1 e.2)) =
      .ok (String.join (members.map fun e => e.1 ++ e.2.plainText)) := by
  induction members with
  | nil => rfl
  | cons e rest ih =>
    obtain ⟨he, hrest⟩ := List.forall_mem_cons.mp h
    rw [List.map_cons, joinContents, he, ih hrest, List.map_cons, String.join_cons]
    rfl

theorem joinContents_sortByUnits (h : ∀ e ∈ members, content e.1 e.2 = .ok e.2.plainText) :
    joinContents (Text.sortByUnits (memberContents members)) =
      .ok (String.join ((Text.sortByUnits members).map fun e => e.1 ++ e.2.plainText)) := by
  rw [memberContents_eq_map, Text.sortByUnits_map fun e : String × Value => content e.1 e.2]
  exact joinContents_of_content fun e he => h e ((Text.sortByUnits_perm members).mem_iff.mp he)

end Text

/-- **Every document has a text**, whatever the key it belongs to. -/
theorem content_of_isDocument {v : Value} (hv : v.isDocument = true) (key : String) :
    content key v = .ok v.plainText := by
  induction v using nodeInduction generalizing key with
  | absent => cases hv
  | vacant => cases hv
  | null => simp only [plainText, content, Except.toOption, Option.getD_some]
  | bool b => simp only [plainText, content, Except.toOption, Option.getD_some]
  | number n => simp only [plainText, content, Except.toOption, Option.getD_some]
  | string s => simp only [plainText, content, Except.toOption, Option.getD_some]
  | foreign f => cases hv
  | array items ih =>
    have hall := isDocument_array.mp hv
    have hkey : ∀ key, content key (array items) = .ok (String.join (items.map plainText)) := by
      intro key
      rw [content]
      exact itemContents_of_content fun v hmem => ih v hmem (hall v hmem) key
    rw [hkey key, plainText, hkey ""]
    rfl
  | record kind members ih =>
    obtain ⟨rfl, -, hall⟩ := isDocument_record.mp hv
    have hkey : ∀ key, content key (object members) =
        .ok (String.join ((Text.sortByUnits members).map fun e => e.1 ++ e.2.plainText)) := by
      intro key
      rw [content]
      exact joinContents_sortByUnits fun e hmem => ih e hmem (hall e hmem) e.1
    rw [hkey key, plainText, hkey ""]
    rfl

section Equations
variable {items : List Value} {members : Fields Value}

theorem plainText_array (h : (array items).isDocument = true) :
    (array items).plainText = String.join (items.map plainText) := by
  have hc := content_of_isDocument h ""
  rw [content, itemContents_of_content fun v hv =>
    content_of_isDocument (isDocument_array.mp h v hv) ""] at hc
  exact (Except.ok.inj hc).symm

theorem plainText_object (h : (object members).isDocument = true) :
    (object members).plainText =
      String.join ((Text.sortByUnits members).map fun e => e.1 ++ e.2.plainText) := by
  have hc := content_of_isDocument h ""
  rw [content, joinContents_sortByUnits fun e he =>
    content_of_isDocument ((isDocument_record.mp h).2.2 e he) e.1] at hc
  exact (Except.ok.inj hc).symm

theorem fingerprintText_object (h : (object members).isDocument = true) :
    (object members).fingerprintText = .ok (object members).plainText := by
  rw [← content_of_isDocument h "", content]
  rfl

end Equations

/-! ### Documents of the same content -/

theorem map_eq_of_forall₂ {α β γ : Type} {f : α → γ} {g : β → γ} {s : List α} {t : List β}
    (h : List.Forall₂ (fun x y => f x = g y) s t) : s.map f = t.map g := by
  rw [← List.forall₂_eq_eq_eq, List.forall₂_map_left_iff, List.forall₂_map_right_iff]
  exact h

/-- **Documents of the same content have the same text**, if numbers that compare as equal have. -/
theorem plainText_eq_of_sameBy {eq : Number → Number → Bool}
    (heq : ∀ x y, eq x y = true → x.fixedText = y.fixedText) {v w : Value}
    (hv : v.isDocument = true) (hw : w.isDocument = true) (h : v.sameBy eq w = true) :
    v.plainText = w.plainText := by
  induction v using nodeInduction generalizing w with
  | absent => cases hv
  | vacant => cases hv
  | foreign f => cases hv
  | null => cases w <;> first | rfl | simp [sameBy] at h
  | bool b =>
    cases w with
    | bool c => rw [beq_iff_eq.mp h]
    | _ => simp [sameBy] at h
  | string s =>
    cases w with
    | string t => rw [beq_iff_eq.mp h]
    | _ => simp [sameBy] at h
  | number x =>
    cases w with
    | number y => exact heq x y h
    | _ => simp [sameBy] at h
  | array items ih =>
    cases w with
    | array others =>
      rw [plainText_array hv, plainText_array hw]
      refine congrArg String.join (map_eq_of_forall₂ ?_)
      refine Fields.forall₂_imp_of_mem (sameBy_array_iff.mp h) fun x hx y hy hxy => ?_
      exact ih x hx (isDocument_array.mp hv x hx) (isDocument_array.mp hw y hy) hxy
    | _ => simp [sameBy] at h
  | record kind members ih =>
    obtain ⟨rfl, hm, hmembers⟩ := isDocument_record.mp hv
    cases w with
    | record kind others =>
      obtain ⟨rfl, ho, hothers⟩ := isDocument_record.mp hw
      rw [plainText_object hv, plainText_object hw]
      refine congrArg String.join (map_eq_of_forall₂ ?_)
      refine Fields.forall₂_imp_of_mem ((sameBy_object_iff hm ho).mp h) fun e he f hf hef => ?_
      have hem := (Text.sortByUnits_perm members).mem_iff.mp he
      have hfo := (Text.sortByUnits_perm others).mem_iff.mp hf
      rw [hef.1, ih e hem (hmembers e hem) (hothers f hfo) hef.2]
    | _ => simp [sameBy] at h

end Value

theorem Number.fixedText_eq_of_same {x y : Number} (h : x.same y = true) :
    x.fixedText = y.fixedText := by
  simp only [same, Bool.or_eq_true, Bool.and_eq_true, decide_eq_true_eq] at h
  rcases h with (rfl | ⟨hx, hy⟩) | ⟨hx, hy⟩
  · rfl
  · have hfinite : ∀ z : Number, z.isZero = true → (z.isNaN || z.isInfinite) = false := by
      intro z hz
      simp only [isZero, Bool.and_eq_true, decide_eq_true_eq] at hz
      simp [isNaN, isInfinite, hz.1]
    simp [fixedText, hfinite x hx, hfinite y hy, hx, hy]
  · simp [fixedText, text, hx, hy]

namespace Value

/-! ### Fingerprints of documents of the same content -/

theorem hash_eq (v : Value) :
    v.hash = v.fingerprintBytes.map
      fun bytes => ofBytes ((Digest.sha256 bytes.toList).take 8) := by
  unfold hash fingerprintBytes
  cases v.fingerprintText <;> rfl

theorem hashString_eq (v : Value) :
    v.hashString = v.fingerprintBytes.map
      fun bytes => String.ofList (Digest.base64 ((Digest.sha256 bytes.toList).take 8)) := by
  unfold hashString fingerprintBytes
  cases v.fingerprintText <;> rfl

/-- **Documents of the same content have one fingerprint**: it exists, and it is taken from the same
bytes. -/
theorem fingerprint_of_same {a b : Fields Value} (ha : (object a).isDocument = true)
    (hb : (object b).isDocument = true) (h : (object a).same (object b) = true) :
    (∃ bytes, (object a).fingerprintBytes = .ok bytes ∧
        (object b).fingerprintBytes = .ok bytes) ∧
      (object a).hash = (object b).hash ∧ (object a).hashString = (object b).hashString := by
  have hby : (object a).sameBy Number.same (object b) = true := by rw [sameBy_same, h]
  have htext : (object a).plainText = (object b).plainText :=
    plainText_eq_of_sameBy (fun _ _ hxy => Number.fixedText_eq_of_same hxy) ha hb hby
  have hbytes : (object a).fingerprintBytes = .ok (object b).plainText.toUTF8 := by
    rw [fingerprintBytes, fingerprintText_object ha, htext]
    rfl
  have hbytes' : (object b).fingerprintBytes = .ok (object b).plainText.toUTF8 := by
    rw [fingerprintBytes, fingerprintText_object hb]
    rfl
  refine ⟨⟨_, hbytes, hbytes'⟩, ?_, ?_⟩
  · rw [hash_eq, hash_eq, hbytes, hbytes']
  · rw [hashString_eq, hashString_eq, hbytes, hbytes']

/-- Members in another order, at the root and below, and the other zero. -/
theorem fingerprint_of_reordered :
    let a := [("a", number .zero), ("b", object [("c", string "x"), ("d", array [number .nan])])]
    let b := [("b", object [("d", array [number .nan]), ("c", string "x")]),
      ("a", number Number.zero.neg)]
    (object a).isDocument = true ∧ (object b).isDocument = true ∧
      (object a).same (object b) = true ∧ (object a).hash = (object b).hash := by
  intro a b
  have ha : (object a).isDocument = true := by decide
  have hb : (object b).isDocument = true := by decide
  have h : (object a).same (object b) = true := by decide +kernel
  exact ⟨ha, hb, h, (fingerprint_of_same ha hb h).2.1⟩

end Value

end Manifest
