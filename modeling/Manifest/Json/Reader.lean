import Manifest.Json.Token

/-!
# Reading document texts

A document is built from the tokens of its text with a stack of the containers that are still open.
What may come next is part of the state (`Expect`).  A key that stands twice in a record has the
last of its values.
-/

namespace Manifest.Json

/-- A container that is still open; elements are kept latest first. -/
inductive Container where
  | array (items : List Value)
  | record (members : Fields Value) (key : String)

/-- What may come next. -/
inductive Expect where
  | value
  | valueOrClose
  | key
  | keyOrClose
  | colon
  | commaOrClose
  | nothing (document : Value)

/-- The open containers, innermost first, and what may come next. -/
abbrev Builder := List Container × Expect

/-- Puts a finished value into the innermost container. -/
def complete (v : Value) : List Container → Builder
  | [] => ([], .nothing v)
  | .array items :: outer => (.array (v :: items) :: outer, .commaOrClose)
  | .record members key :: outer =>
    (.record (Fields.insert members key v) key :: outer, .commaOrClose)

/-- Reads the first token of a value. -/
def beginValue (stack : List Container) : Token → Option Builder
  | .openArray => some (.array [] :: stack, .valueOrClose)
  | .openRecord => some (.record [] "" :: stack, .keyOrClose)
  | .text s => some (complete (.string s) stack)
  | .word v => some (complete v stack)
  | _ => none

/-- Closes the innermost container. -/
def close : List Container → Token → Option Builder
  | .array items :: outer, .closeArray => some (complete (.array items.reverse) outer)
  | .record members _ :: outer, .closeRecord => some (complete (.object members) outer)
  | _, _ => none

/-- Reads a token. -/
def build : Builder → Token → Option Builder
  | (stack, .value), t => beginValue stack t
  | (stack, .valueOrClose), .closeArray => close stack .closeArray
  | (stack, .valueOrClose), t => beginValue stack t
  | (.record members _ :: outer, .key), .text s => some (.record members s :: outer, .colon)
  | (.record members _ :: outer, .keyOrClose), .text s => some (.record members s :: outer, .colon)
  | (stack, .keyOrClose), .closeRecord => close stack .closeRecord
  | (stack, .colon), .colon => some (stack, .value)
  | (.array items :: outer, .commaOrClose), .comma => some (.array items :: outer, .value)
  | (.record members key :: outer, .commaOrClose), .comma =>
    some (.record members key :: outer, .key)
  | (stack, .commaOrClose), t => close stack t
  | _, _ => none

/-- The document that a text writes, if it is one. -/
def parse? (text : String) : Option Value := do
  match ← (← tokens? text).foldlM build ([], .value) with
  | (_, .nothing document) => some document
  | _ => none

end Manifest.Json
