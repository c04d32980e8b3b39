import Manifest.Path

/-!
# Paths as pointers

The pointer of a path writes every segment behind a slash, with `~0` for a tilde and `~1` for a
slash inside it; the root is written as a single slash.  Reading is lenient: the first slash may be
missing, the empty text is the root as well, and a tilde that no `0` or `1` follows stands for
itself.
-/

namespace Manifest.Path

/-- Writes the characters of a segment. -/
def escape : List Char → List Char
  | [] => []
  | c :: rest =>
    if c = '~' then '~' :: '0' :: escape rest
    else if c = '/' then '~' :: '1' :: escape rest
    else c :: escape rest

/-- Reads the characters of a segment. -/
def unescape : List Char → List Char
  | '~' :: '0' :: rest => '~' :: unescape rest
  | '~' :: '1' :: rest => '/' :: unescape rest
  | c :: rest => c :: unescape rest
  | [] => []

/-! ## Segments -/

theorem unescape_cons {c : Char} (h : c ≠ '~') (rest : List Char) :
    unescape (c :: rest) = c :: unescape rest := by
  conv => lhs; unfold unescape
  split <;> simp_all

theorem unescape_escape (segment : List Char) : unescape (escape segment) = segment := by
  induction segment with
  | nil => rfl
  | cons c rest ih =>
    by_cases ht : c = '~'
    · simp [escape, ht, unescape, ih]
    · by_cases hs : c = '/'
      · simp [escape, hs, unescape, ih]
      · simp [escape, ht, hs, unescape_cons ht, ih]

theorem slash_notMem_escape (segment : List Char) : '/' ∉ escape segment := by
  induction segment with
  | nil => simp [escape]
  | cons c rest ih =>
    by_cases ht : c = '~'
    · simp [escape, ht, ih]
    · by_cases hs : c = '/'
      · simp [escape, hs, ih]
      · simp [escape, ht, hs, ih, Ne.symm hs]

/-! ## Pointers -/

/-- The parts of a text between its slashes, the first of them apart. -/
def partsAtSlash : List Char → List Char × List (List Char)
  | [] => ([], [])
  | c :: rest =>
    let (first, others) := partsAtSlash rest
    if c = '/' then ([], first :: others) else (c :: first, others)

/-- Writes a path as a pointer. -/
def toPointer (path : Path) : String :=
  match path with
  | [] => "/"
  | _ => String.ofList (path.flatMap fun segment => '/' :: escape segment.toList)

/-- Reads a pointer. -/
def ofPointer (pointer : String) : Path :=
  if pointer = "" || pointer = "/" then []
  else
    let (first, others) := partsAtSlash pointer.toList
    ((if first = [] then others else first :: others)).map fun part => String.ofList (unescape part)

end Manifest.Path
