import OnePass.Token.Piece

/-!
# Reading tokens one by one

A cursor stands somewhere in a source and is asked for what comes next: a token, or a scan
error after which reading goes on.  At the end of the source it keeps answering with the end
of the input.  Everything is reported at the position of its first character.

## Main definitions

* `ScanError` — a fault at a position.
* `Reading` — one answer of a cursor.
* `Cursor.next` — the next answer, and where the cursor stands behind it.
* `read source` — all answers up to the end of the input.
-/

namespace OnePass

/-- A fault at the position of its first character. -/
structure ScanError where
  /-- Where the faulty text begins. -/
  position : Position
  /-- What is wrong with it. -/
  fault : ScanFault
  deriving DecidableEq, Repr

/-- The wording of a scan error, with its position in front. -/
def ScanError.message (e : ScanError) : String := s!"{e.position.text}: {e.fault.message}"

/-- One result of reading: a token, or a scan error after which reading goes on. -/
abbrev Reading := Except ScanError Token

/-- What a piece at position `p` reads as; blanks read as nothing. -/
def Piece.reading? (p : Position) (piece : Piece) : Option Reading :=
  match piece.kind with
  | .blank => none
  | .token kind => some (.ok ⟨kind, p⟩)
  | .fault fault => some (.error ⟨p, fault⟩)

/-- Where the reading of a source has got to. -/
structure Cursor where
  /-- Where the next character stands, or would stand if there were one. -/
  position : Position
  /-- What has not been read yet. -/
  text : List Char
  deriving DecidableEq, Repr

namespace Cursor

/-- The beginning of a source. -/
def start (source : String) : Cursor := ⟨.start, source.toList⟩

/-- Reads the next token or scan error, passing over the blanks in front of it.  Every piece
takes at least one character, so it is enough to look at one piece for each character of
`bound`. -/
def nextWithin : (bound : List Char) → Cursor → Reading × Cursor
  | _ :: bound, ⟨p, c :: rest⟩ =>
    match Piece.first c rest with
    | (piece, text) =>
      let after : Cursor := ⟨p.past piece.text, text⟩
      match piece.reading? p with
      | some reading => (reading, after)
      | none => nextWithin bound after
  | _, cursor => (.ok ⟨.endOfInput, cursor.position⟩, cursor)

/-- Reads the next token or scan error.  At the end of the source, that is the end of the
input, and the cursor stays where it is. -/
def next (cursor : Cursor) : Reading × Cursor := nextWithin cursor.text cursor

/-- All that is read from the cursor on, behind what is already in `done`, last one first.
Nothing is read without taking a character, so `bound` need not be longer than the text. -/
def readOnto : (done : List Reading) → (bound : List Char) → Cursor → List Reading
  | done, [], cursor => (cursor.next.1 :: done).reverse
  | done, _ :: bound, cursor =>
    match cursor.next with
    | (.ok ⟨.endOfInput, p⟩, _) => (.ok ⟨.endOfInput, p⟩ :: done).reverse
    | (reading, after) => readOnto (reading :: done) bound after

end Cursor

/-- The tokens and scan errors of a source, in order, up to the end of the input, which is the last
one. -/
def read (source : String) : List Reading := Cursor.readOnto [] source.toList (.start source)

end OnePass
