import Manifest.Value

/-!
# Tokens of document texts

A document text is cut into brackets, separators and scalars in one pass over its characters.  The
state between two characters (`Mode`) is a word that is being read, a quoted text with what an
escape in it still lacks, or neither.  A word has to be one of the three names or a number of the
strict grammar: no sign but a minus, no superfluous zero, digits on both sides of the point.

Quoted texts are read as code points and 16-bit units; a pair of units is joined to one character,
and a unit that is left alone becomes the replacement character.
-/

namespace Manifest.Json

/-- A piece of a document text. -/
inductive Token where
  | openArray
  | closeArray
  | openRecord
  | closeRecord
  | comma
  | colon
  | text (s : String)
  | word (v : Value)

/-! ## Quoted texts -/

/-- Joins the two units of each pair; a unit that is left alone becomes `U+FFFD`. -/
def joinUnits : List Nat → List Char
  | [] => []
  | [u] => [if 0xD800 ≤ u && u < 0xE000 then Char.ofNat 0xFFFD else Char.ofNat u]
  | u :: w :: rest =>
    if 0xD800 ≤ u && u < 0xDC00 then
      if 0xDC00 ≤ w && w < 0xE000 then
        Char.ofNat (0x10000 + (u - 0xD800) * 0x400 + (w - 0xDC00)) :: joinUnits rest
      else Char.ofNat 0xFFFD :: joinUnits (w :: rest)
    else if 0xDC00 ≤ u && u < 0xE000 then Char.ofNat 0xFFFD :: joinUnits (w :: rest)
    else Char.ofNat u :: joinUnits (w :: rest)

/-- The value of a hexadecimal digit. -/
def hexDigit? (c : Char) : Option Nat :=
  if c.isDigit then some (c.toNat - '0'.toNat)
  else if 'a' ≤ c && c ≤ 'f' then some (c.toNat - 'a'.toNat + 10)
  else if 'A' ≤ c && c ≤ 'F' then some (c.toNat - 'A'.toNat + 10)
  else none

/-- The character that a letter behind a backslash stands for. -/
def escaped? (c : Char) : Option Nat :=
  match c with
  | '"' => some 0x22
  | '\\' => some 0x5C
  | '/' => some 0x2F
  | 'b' => some 0x08
  | 'f' => some 0x0C
  | 'n' => some 0x0A
  | 'r' => some 0x0D
  | 't' => some 0x09
  | _ => none

/-! ## Words -/

/-- One or more digits and what follows them. -/
def digits? (cs : List Char) : Option (List Char × List Char) :=
  match cs.span Char.isDigit with
  | ([], _) => none
  | (ds, rest) => some (ds, rest)

/-- Digits without a superfluous zero and what follows them. -/
def integer? (cs : List Char) : Option (List Char × List Char) :=
  match digits? cs with
  | some ('0' :: _ :: _, _) => none
  | r => r

/-- The digits behind a point, if there is one. -/
def fraction? : List Char → Option (List Char × List Char)
  | '.' :: rest => digits? rest
  | cs => some ([], cs)

/-- The signed digits behind an `e`, if there is one. -/
def exponent? : List Char → Option (Int × List Char)
  | [] => some (0, [])
  | c :: rest =>
    if c = 'e' || c = 'E' then
      match rest with
      | '-' :: more => (digits? more).map fun (ds, r) => (-(Nat.ofDigitChars 10 ds 0 : Int), r)
      | '+' :: more => (digits? more).map fun (ds, r) => ((Nat.ofDigitChars 10 ds 0 : Int), r)
      | more => (digits? more).map fun (ds, r) => ((Nat.ofDigitChars 10 ds 0 : Int), r)
    else some (0, c :: rest)

/-- A number without its sign. -/
def unsigned? (minus : Bool) (cs : List Char) : Option Number := do
  let (whole, rest) ← integer? cs
  let (decimals, rest) ← fraction? rest
  let (exponent, rest) ← exponent? rest
  if rest.isEmpty then
    some (.ofDecimal minus (Nat.ofDigitChars 10 (whole ++ decimals) 0)
      (exponent - decimals.length))
  else none

/-- A name or a number. -/
def word? (cs : List Char) : Option Value :=
  match String.ofList cs, cs with
  | "null", _ => some .null
  | "true", _ => some (.bool true)
  | "false", _ => some (.bool false)
  | _, '-' :: rest => (unsigned? true rest).map .number
  | _, _ => (unsigned? false cs).map .number

/-! ## The pass over the characters -/

/-- What is being read; characters and units are kept latest first. -/
inductive Mode where
  | between
  | word (cs : List Char)
  | text (us : List Nat)
  | escape (us : List Nat)
  | hex (us : List Nat) (missing value : Nat)

/-- The four characters that may stand between tokens. -/
def isBlank (c : Char) : Bool := c = ' ' || c = '\t' || c = '\n' || c = '\r'

/-- A bracket or separator. -/
def punctuation? (c : Char) : Option Token :=
  if c = '[' then some .openArray
  else if c = ']' then some .closeArray
  else if c = '\x7b' then some .openRecord
  else if c = '\x7d' then some .closeRecord
  else if c = ',' then some .comma
  else if c = ':' then some .colon
  else none

/-- The tokens read so far, latest first, and what is being read. -/
abbrev Scanner := List Token × Mode

/-- Reads a character outside of words and texts. -/
def startAt (tokens : List Token) (c : Char) : Scanner :=
  if isBlank c then (tokens, .between)
  else if c = '"' then (tokens, .text [])
  else
    match punctuation? c with
    | some t => (t :: tokens, .between)
    | none => (tokens, .word [c])

/-- Reads a character. -/
def advance : Scanner → Char → Option Scanner
  | (tokens, .between), c => some (startAt tokens c)
  | (tokens, .word cs), c =>
    if isBlank c || c = '"' || (punctuation? c).isSome then
      (word? cs.reverse).map fun v => startAt (.word v :: tokens) c
    else some (tokens, .word (c :: cs))
  | (tokens, .text us), c =>
    if c = '"' then some (.text (String.ofList (joinUnits us.reverse)) :: tokens, .between)
    else if c = '\\' then some (tokens, .escape us)
    else if c.toNat < 0x20 then none
    else some (tokens, .text (c.toNat :: us))
  | (tokens, .escape us), c =>
    if c = 'u' then some (tokens, .hex us 4 0)
    else (escaped? c).map fun u => (tokens, .text (u :: us))
  | (tokens, .hex us missing value), c =>
    (hexDigit? c).map fun d =>
      if missing ≤ 1 then (tokens, .text ((value * 16 + d) :: us))
      else (tokens, .hex us (missing - 1) (value * 16 + d))

/-- The tokens of a text. -/
def tokens? (text : String) : Option (List Token) := do
  let (tokens, mode) ← text.toList.foldlM advance ([], .between)
  match mode with
  | .between => some tokens.reverse
  | .word cs => (word? cs.reverse).map fun v => (Token.word v :: tokens).reverse
  | _ => none

end Manifest.Json
