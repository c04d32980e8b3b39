import Manifest.Proofs.NumberText

/-!
# Rows of texts

A row of texts that are joined without anything between them can be read in another way, but only if
the texts run into each other from both sides.  Take two rows and leave out what they have in common
in front and behind.  If the joined texts are the same, then one of the first texts left begins the
other and one of the last ones ends the other, and there is more than one text on some side; or all
that is left are empty texts (`Text.Overlap`).

The main statement is `eq_or_confusable`: rows with one joined text are the same, or they are
`Text.Confusable` in this way.  Rows are not if the first texts that differ are apart
(`not_confusable_of_apart`) or if they differ in one text only (`not_confusable_of_single`).
-/

namespace Manifest

namespace Text

/-- Neither of two texts is a proper end of the other. -/
def ApartBehind (s t : String) : Prop :=
  s.toList <:+ t.toList ∨ t.toList <:+ s.toList → s = t

/-- Two rows run into each other: they are empty texts, or more than one text, which begin with
different ones of which one begins the other, and end with different ones of which one ends the
other. -/
inductive Overlap (s t : List String) : Prop
  | blank : (∀ x ∈ s ++ t, x = "") → Overlap s t
  | crossed {x y x' y' : String} : s.head? = some x → t.head? = some y → ¬ Apart x y →
      s.getLast? = some x' → t.getLast? = some y' → ¬ ApartBehind x' y' →
      1 < s.length ∨ 1 < t.length → Overlap s t

/-- Two rows differ, and run into each other where they do. -/
def Confusable (s t : List String) : Prop :=
  s ≠ t ∧ ∃ front s' t' back, s = front ++ s' ++ back ∧ t = front ++ t' ++ back ∧ Overlap s' t'

/-! ### Reading joined texts -/

section Read
variable {s t : String} {r r' : List Char}

theorem Apart.eq_of_append (h : Apart s t) (heq : s.toList ++ r = t.toList ++ r') : s = t := by
  have hpre : s.toList <+: t.toList ++ r' := ⟨r, heq⟩
  exact h (List.prefix_or_prefix_of_prefix hpre (List.prefix_append _ _))

theorem ApartBehind.eq_of_append (h : ApartBehind s t) (heq : r ++ s.toList = r' ++ t.toList) :
    s = t := by
  have hsuf : s.toList <:+ r' ++ t.toList := ⟨r, heq⟩
  exact h (List.suffix_or_suffix_of_suffix hsuf (List.suffix_append _ _))

end Read

theorem toList_join_append (s t : List String) :
    (String.join (s ++ t)).toList = (String.join s).toList ++ (String.join t).toList := by
  rw [String.join_append, String.toList_append]

theorem join_singleton (x : String) : String.join [x] = x := by simp

theorem join_flatMap {α : Type} {f : α → List String} {g : α → String} {l : List α}
    (h : ∀ x ∈ l, g x = String.join (f x)) : String.join (l.flatMap f) = String.join (l.map g) := by
  induction l with
  | nil => rfl
  | cons x rest ih =>
    obtain ⟨hx, hrest⟩ := List.forall_mem_cons.mp h
    rw [List.flatMap_cons, String.join_append, ih hrest, List.map_cons, String.join_cons, hx]

theorem join_eq_empty_iff {s : List String} : String.join s = "" ↔ ∀ x ∈ s, x = "" := by
  rw [← String.toList_inj, String.toList_join, String.toList_empty, List.flatMap_eq_nil_iff]
  simp

theorem exists_common_front {α : Type} (s t : List α) :
    ∃ front s' t', s = front ++ s' ∧ t = front ++ t' ∧
      (s' = [] ∨ t' = [] ∨ s'.head? ≠ t'.head?) := by
  classical
  induction s generalizing t with
  | nil => exact ⟨[], [], t, rfl, rfl, Or.inl rfl⟩
  | cons x rest ih =>
    cases t with
    | nil => exact ⟨[], x :: rest, [], rfl, rfl, Or.inr (Or.inl rfl)⟩
    | cons y more =>
      by_cases h : x = y
      · subst h
        obtain ⟨front, s', t', rfl, rfl, hd⟩ := ih more
        exact ⟨x :: front, s', t', rfl, rfl, hd⟩
      · exact ⟨[], x :: rest, y :: more, rfl, rfl, Or.inr (Or.inr (by simpa using h))⟩

theorem exists_common_back {α : Type} (s t : List α) :
    ∃ s' t' back, s = s' ++ back ∧ t = t' ++ back ∧
      (s' = [] ∨ t' = [] ∨ s'.getLast? ≠ t'.getLast?) := by
  obtain ⟨front, s', t', hs, ht, hd⟩ := exists_common_front s.reverse t.reverse
  refine ⟨s'.reverse, t'.reverse, front.reverse, ?_, ?_, ?_⟩
  · rw [← List.reverse_append, ← hs, List.reverse_reverse]
  · rw [← List.reverse_append, ← ht, List.reverse_reverse]
  · simpa [List.getLast?_reverse] using hd

/-- Rows with one joined text run into each other if they begin and end differently. -/
theorem overlap_of_join {s t : List String} (h : String.join s = String.join t)
    (hhead : s = [] ∨ t = [] ∨ s.head? ≠ t.head?)
    (hlast : s = [] ∨ t = [] ∨ s.getLast? ≠ t.getLast?) : Overlap s t := by
  rcases List.eq_nil_or_concat' s with rfl | ⟨a, x', hs⟩
  · exact .blank fun x hx => join_eq_empty_iff.mp h.symm x (by simpa using hx)
  rcases List.eq_nil_or_concat' t with rfl | ⟨b, y', ht⟩
  · exact .blank fun x hx => join_eq_empty_iff.mp h x (by simpa using hx)
  cases s with
  | nil => simp at hs
  | cons x rest =>
    cases t with
    | nil => simp at ht
    | cons y more =>
      have hxy : x ≠ y := by simpa using hhead
      have hxy' : x' ≠ y' := by simpa [hs, ht] using hlast
      have hlist := congrArg String.toList h
      refine .crossed rfl rfl (fun hp => hxy ?_) (by rw [hs, List.getLast?_concat])
        (by rw [ht, List.getLast?_concat]) (fun hp => hxy' ?_) ?_
      · rw [String.join_cons, String.join_cons, String.toList_append, String.toList_append] at hlist
        exact hp.eq_of_append hlist
      · rw [hs, ht, toList_join_append, toList_join_append, join_singleton, join_singleton] at hlist
        exact hp.eq_of_append hlist
      · by_contra hone
        rw [List.length_cons, List.length_cons] at hone
        obtain rfl : rest = [] := List.length_eq_zero_iff.mp (by omega)
        obtain rfl : more = [] := List.length_eq_zero_iff.mp (by omega)
        rw [join_singleton, join_singleton] at h
        exact hxy h

/-- **Rows with one joined text** are the same, or can be confused. -/
theorem eq_or_confusable {s t : List String} (h : String.join s = String.join t) :
    s = t ∨ Confusable s t := by
  refine or_iff_not_imp_left.mpr fun hne => ⟨hne, ?_⟩
  obtain ⟨front, s₁, t₁, rfl, rfl, hhead⟩ := exists_common_front s t
  obtain ⟨s₂, t₂, back, rfl, rfl, hlast⟩ := exists_common_back s₁ t₁
  refine ⟨front, s₂, t₂, back, (List.append_assoc _ _ _).symm, (List.append_assoc _ _ _).symm, ?_⟩
  refine overlap_of_join ?_ ?_ hlast
  · have hlist := congrArg String.toList h
    simp only [toList_join_append, List.append_cancel_left_eq, List.append_cancel_right_eq] at hlist
    exact String.toList_injective hlist
  · -- what is left out behind does not change how the rows begin
    cases s₂ with
    | nil => exact Or.inl rfl
    | cons x rest =>
      cases t₂ with
      | nil => exact Or.inr (Or.inl rfl)
      | cons y more => simpa using hhead

/-! ### Rows that are not confused -/

section NotConfused
variable {front s t : List String} {x y : String}

theorem front_eq_of_ne {α : Type} {front front' s s' t t' : List α} {x y x' y' : α} (hxy : x ≠ y)
    (hxy' : x' ≠ y') (hs : front ++ x :: s = front' ++ x' :: s')
    (ht : front ++ y :: t = front' ++ y' :: t') : front = front' := by
  induction front generalizing front' with
  | nil =>
    cases front' with
    | nil => rfl
    | cons z rest =>
      exact absurd ((List.cons.inj hs).1.trans (List.cons.inj ht).1.symm) hxy
  | cons z rest ih =>
    cases front' with
    | nil => exact absurd ((List.cons.inj hs).1.symm.trans (List.cons.inj ht).1) hxy'
    | cons w more =>
      rw [(List.cons.inj hs).1, ih (List.cons.inj hs).2 (List.cons.inj ht).2]

theorem ne_of_not_apart (h : ¬ Apart x y) : x ≠ y := fun he => h fun _ => he

/-- **The first texts that differ decide**, if they are apart. -/
theorem not_confusable_of_apart (h : Apart x y) (hne : x ≠ y) :
    ¬ Confusable (front ++ x :: s) (front ++ y :: t) := by
  rintro ⟨-, front', s', t', back, hs, ht, hover⟩
  rw [List.append_assoc] at hs ht
  cases hover with
  | blank hblank =>
    -- empty texts do not change what is joined
    have hjoin : String.join (front ++ x :: s) = String.join (front ++ y :: t) := by
      rw [hs, ht, String.join_append, String.join_append, String.join_append, String.join_append,
        join_eq_empty_iff.mpr fun z hz => hblank z (List.mem_append_left _ hz),
        join_eq_empty_iff.mpr fun z hz => hblank z (List.mem_append_right _ hz)]
    have hlist := congrArg String.toList hjoin
    rw [toList_join_append, toList_join_append, List.append_cancel_left_eq, String.join_cons,
      String.join_cons, String.toList_append, String.toList_append] at hlist
    exact hne (h.eq_of_append hlist)
  | crossed hx hy hxy _ _ _ _ =>
    obtain ⟨rest, rfl⟩ := List.head?_eq_some_iff.mp hx
    obtain ⟨more, rfl⟩ := List.head?_eq_some_iff.mp hy
    obtain rfl := front_eq_of_ne hne (ne_of_not_apart hxy) hs ht
    rw [List.append_cancel_left_eq, List.cons_append, List.cons.injEq] at hs ht
    rw [← hs.1, ← ht.1] at hxy
    exact hxy h

/-- **Rows that differ in one text** are not confused. -/
theorem not_confusable_of_single (front : List String) (x y : String) (back : List String) :
    ¬ Confusable (front ++ x :: back) (front ++ y :: back) := by
  rintro ⟨hrows, front', s', t', back', hs, ht, hover⟩
  have hne : x ≠ y := by
    rintro rfl
    exact hrows rfl
  rw [List.append_assoc] at hs ht
  have hlength : s'.length = t'.length := by
    have hls := congrArg List.length hs
    have hlt := congrArg List.length ht
    simp only [List.length_append, List.length_cons] at hls hlt
    omega
  cases hover with
  | blank hblank =>
    have hall : s' = t' := by
      rw [List.eq_replicate_of_mem fun z hz => hblank z (List.mem_append_left _ hz),
        List.eq_replicate_of_mem fun z hz => hblank z (List.mem_append_right _ hz), hlength]
    exact hrows (by rw [hs, ht, hall])
  | crossed hx hy hxy hx' hy' hxy' hmore =>
    obtain ⟨rest, rfl⟩ := List.head?_eq_some_iff.mp hx
    obtain ⟨more, rfl⟩ := List.head?_eq_some_iff.mp hy
    obtain rfl := front_eq_of_ne hne (ne_of_not_apart hxy) hs ht
    rw [List.append_cancel_left_eq, List.cons_append, List.cons.injEq] at hs ht
    obtain rfl : rest = more := List.append_cancel_right (hs.2.symm.trans ht.2)
    -- only the first texts differ, so the last ones can differ only if they are the first
    rcases List.eq_nil_or_concat' rest with rfl | ⟨inner, last, rfl⟩
    · simp at hmore
    · rw [← List.cons_append, List.getLast?_concat] at hx' hy'
      cases hx'
      cases hy'
      exact hxy' fun _ => rfl

end NotConfused

end Text

end Manifest
