import Manifest.Path.Pointer

/-!
# Pointers that are read back

A pointer splits at its slashes into the written segments (`partsAtSlash_written`), so a path is
read back from its pointer.  Only the path of one empty segment is not, as it is written like the
root.

The other way round, a text splits into parts that are read as segments.  A tilde that starts no
escape is read as itself and written as two signs, so a text is written back only if every tilde in
it is paired (`TildesPaired`, `written_partsAtSlash`), and only if it starts with a slash.

The main statement is `pointers_inverse_iff`: each of the two is the inverse of the other exactly on
what the other gives.
-/

namespace Manifest.Path

theorem partsAtSlash_append {segment : List Char} (h : '/' ∉ segment) (rest : List Char) :
    partsAtSlash (segment ++ rest) =
      (segment ++ (partsAtSlash rest).1, (partsAtSlash rest).2) := by
  induction segment with
  | nil => rfl
  | cons c inner ih =>
    rw [List.mem_cons, not_or] at h
    rw [List.cons_append, partsAtSlash, ih h.2]
    exact if_neg (Ne.symm h.1)

theorem partsAtSlash_written (path : Path) :
    partsAtSlash (path.flatMap fun segment => '/' :: escape segment.toList) =
      ([], path.map fun segment => escape segment.toList) := by
  induction path with
  | nil => rfl
  | cons segment rest ih =>
    rw [List.flatMap_cons, List.cons_append, partsAtSlash,
      partsAtSlash_append (slash_notMem_escape _), ih, List.append_nil]
    rfl

theorem map_unescape_written (path : Path) :
    (path.map fun segment => escape segment.toList).map
      (fun part => String.ofList (unescape part)) = path := by
  rw [List.map_map]
  refine (List.map_congr_left fun segment _ => ?_).trans (List.map_id path)
  rw [Function.comp_apply, unescape_escape, String.ofList_toList, id]

/-- **A path is read back from its pointer.** -/
theorem ofPointer_toPointer {path : Path} (h : path ≠ [""]) : ofPointer path.toPointer = path := by
  cases path with
  | nil => rfl
  | cons segment rest =>
    have hp := partsAtSlash_written (segment :: rest)
    have hne : toPointer (segment :: rest) ≠ "" := by
      intro he
      have hl := congrArg String.toList he
      simp [toPointer] at hl
    have hne' : toPointer (segment :: rest) ≠ "/" := by
      intro he
      have hl : ((segment :: rest).flatMap fun s => '/' :: escape s.toList) = ['/'] := by
        simpa [toPointer] using congrArg String.toList he
      rw [hl] at hp
      have hparts : (segment :: rest).map (fun s => escape s.toList) = [[]] :=
        (congrArg Prod.snd hp).symm
      have hw := map_unescape_written (segment :: rest)
      rw [hparts] at hw
      exact h hw.symm
    unfold ofPointer
    rw [if_neg (by simp [hne, hne'])]
    simp only [toPointer, String.toList_ofList, hp, if_true]
    exact map_unescape_written (segment :: rest)

/-! ### Pointers that are written back -/

/-- Every tilde of the text has a `0` or a `1` behind it. -/
def TildesPaired (text : List Char) : Prop :=
  ∀ before after, text = before ++ '~' :: after →
    after.head? = some '0' ∨ after.head? = some '1'

theorem tildesPaired_cons {c : Char} {rest : List Char} :
    TildesPaired (c :: rest) ↔
      (c = '~' → rest.head? = some '0' ∨ rest.head? = some '1') ∧ TildesPaired rest := by
  constructor
  · intro h
    refine ⟨fun hc => h [] rest (by rw [hc, List.nil_append]), fun before after he => ?_⟩
    exact h (c :: before) after (by rw [he, List.cons_append])
  · rintro ⟨hc, hr⟩ before after he
    cases before with
    | nil =>
      obtain ⟨h1, h2⟩ := List.cons.inj he
      rw [← h2]
      exact hc h1
    | cons b before =>
      obtain ⟨-, h2⟩ := List.cons.inj he
      exact hr before after h2

theorem tildesPaired_escape_append {rest : List Char} (h : TildesPaired rest)
    (segment : List Char) : TildesPaired (escape segment ++ rest) := by
  induction segment with
  | nil => exact h
  | cons c inner ih =>
    by_cases ht : c = '~'
    · simp [escape, ht, tildesPaired_cons, ih]
    · by_cases hs : c = '/'
      · simp [escape, hs, tildesPaired_cons, ih]
      · simp [escape, ht, hs, tildesPaired_cons, ih]

theorem tildesPaired_written (path : Path) :
    TildesPaired (path.flatMap fun segment => '/' :: escape segment.toList) := by
  induction path with
  | nil =>
    intro before after he
    simp at he
  | cons segment rest ih =>
    have hs := tildesPaired_escape_append ih segment.toList
    rw [List.flatMap_cons, List.cons_append, tildesPaired_cons]
    exact ⟨fun h => absurd h (by decide), hs⟩

theorem toList_toPointer {path : Path} (h : path ≠ []) :
    path.toPointer.toList = path.flatMap fun segment => '/' :: escape segment.toList := by
  cases path with
  | nil => exact absurd rfl h
  | cons segment rest => simp [toPointer]

/-- A text without a lone tilde is its parts, each of them read and written again. -/
theorem written_partsAtSlash {text : List Char} (h : TildesPaired text) :
    escape (unescape (partsAtSlash text).1) ++
      (partsAtSlash text).2.flatMap (fun part => '/' :: escape (unescape part)) = text := by
  induction text using unescape.induct with
  | case1 rest ih =>
    have hr : TildesPaired rest := (tildesPaired_cons.mp (tildesPaired_cons.mp h).2).2
    have he := ih hr
    simpa [partsAtSlash, unescape, escape] using he
  | case2 rest ih =>
    have hr : TildesPaired rest := (tildesPaired_cons.mp (tildesPaired_cons.mp h).2).2
    have he := ih hr
    simpa [partsAtSlash, unescape, escape] using he
  | case3 c rest h0 h1 ih =>
    obtain ⟨hc, hr⟩ := tildesPaired_cons.mp h
    have he := ih hr
    have ht : c ≠ '~' := by
      intro ht
      rcases hc ht with hd | hd
      · obtain ⟨after, ha⟩ := List.head?_eq_some_iff.mp hd
        exact h0 after ht ha
      · obtain ⟨after, ha⟩ := List.head?_eq_some_iff.mp hd
        exact h1 after ht ha
    by_cases hs : c = '/'
    · simpa [partsAtSlash, hs, unescape, escape] using he
    · simpa [partsAtSlash, hs, ht, unescape_cons ht, escape] using he
  | case4 => rfl

/-- **A pointer is written back** if it starts with a slash and has no lone tilde. -/
theorem toPointer_ofPointer {pointer : String} (hs : pointer.toList.head? = some '/')
    (ht : TildesPaired pointer.toList) : (ofPointer pointer).toPointer = pointer := by
  obtain ⟨rest, hr⟩ := List.head?_eq_some_iff.mp hs
  by_cases hroot : pointer = "/"
  · rw [hroot]
    rfl
  have hne : pointer ≠ "" := by
    rintro rfl
    simp at hr
  rw [hr] at ht
  have hw := written_partsAtSlash (tildesPaired_cons.mp ht).2
  have hread : ofPointer pointer =
      ((partsAtSlash rest).1 :: (partsAtSlash rest).2).map
        fun part => String.ofList (unescape part) := by
    unfold ofPointer
    rw [if_neg (by simp [hne, hroot]), hr]
    simp [partsAtSlash]
  have hwritten : (ofPointer pointer).flatMap (fun segment => '/' :: escape segment.toList) =
      '/' :: rest := by
    rw [hread]
    simpa [List.flatMap_map] using hw
  rw [← String.toList_inj, toList_toPointer (by simp [hread]), hwritten, hr]

/-- **Writing and reading pointers are inverse exactly on their images**: a path is read back if it
is not the one that is written like the root, and a text is written back if it starts with a slash
and every tilde in it has a `0` or a `1` behind it. -/
theorem pointers_inverse_iff :
    (∀ path : Path, ofPointer path.toPointer = path ↔ path ≠ [""]) ∧
      ∀ pointer : String, (ofPointer pointer).toPointer = pointer ↔
        pointer.toList.head? = some '/' ∧ TildesPaired pointer.toList := by
  refine ⟨fun path => ⟨fun h he => ?_, ofPointer_toPointer⟩, fun pointer => ⟨fun h => ?_, ?_⟩⟩
  · rw [he] at h
    exact absurd h (by decide +kernel)
  · rw [← h]
    cases hp : ofPointer pointer with
    | nil =>
      have hr := tildesPaired_written [""]
      exact ⟨rfl, hr⟩
    | cons segment rest =>
      rw [toList_toPointer (by simp)]
      exact ⟨rfl, tildesPaired_written _⟩
  · rintro ⟨hs, ht⟩
    exact toPointer_ofPointer hs ht

end Manifest.Path
