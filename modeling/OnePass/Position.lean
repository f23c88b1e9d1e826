/-!
# Source positions

A position is a line and a column, both counted from one.  Columns count
characters, and a line feed is the last character of its line.

## Main definitions

* `Position.next p c` — the position after the character `c` standing at `p`.
* `Position.past p text` — the position after a whole stretch of text.
* `Position.text` — the wording used by every message that names a position.
-/

namespace OnePass

/-- A place in the source text.  Every token and every report has one. -/
structure Position where
  /-- The line, counted from one. -/
  line : Nat
  /-- The column, counted from one and in characters. -/
  column : Nat
  deriving DecidableEq, Repr

namespace Position

/-- The position of the first character of a source. -/
def start : Position := ⟨1, 1⟩

/-- The position after the character `c` standing at `p`. -/
def next (p : Position) (c : Char) : Position :=
  if c = '\n' then ⟨p.line + 1, 1⟩ else ⟨p.line, p.column + 1⟩

/-- The position after the characters of `text`, the first of which stands at `p`. -/
def past (p : Position) (text : List Char) : Position := text.foldl next p

@[simp] theorem past_nil (p : Position) : p.past [] = p := rfl

@[simp] theorem past_cons (p : Position) (c : Char) (text : List Char) :
    p.past (c :: text) = (p.next c).past text := rfl

/-- Passing two stretches one after the other is passing their concatenation. -/
theorem past_append (p : Position) (s t : List Char) :
    p.past (s ++ t) = (p.past s).past t := List.foldl_append

/-- The wording of a position in messages, the same for errors, warnings and faults. -/
def text (p : Position) : String := s!"line {p.line}, column {p.column}"

end Position

end OnePass
