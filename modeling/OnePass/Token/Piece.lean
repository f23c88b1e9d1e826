import OnePass.Token

/-!
# Pieces of source text

A source is cut, from left to right, into pieces: blanks (white space and
comments), tokens, and faults.  Each piece keeps its own text, so that whatever is cut off
a text can be put back in front of what follows it.

## Main definitions

* `ScanFault` — what can be wrong with a stretch of text.
* `Piece` — a stretch of text and what it is.
* `Piece.first c rest` — the first piece of the text `c :: rest`, and what follows.

## Main results

* `Piece.first_text_append` — **nothing is lost**: the first piece and what follows it make up
  the text.
* `Piece.length_first_snd_le` — what follows the first piece is shorter than the text.
-/

namespace OnePass

/-- What can be wrong with a stretch of source text.  None of it keeps the rest from being read. -/
inductive ScanFault
  /-- A block comment that is never closed. -/
  | unterminatedComment
  /-- A character that begins no token. -/
  | unexpectedCharacter (char : Char)
  /-- A number beyond `Token.maxNumber`, with its digits. -/
  | numberOutOfRange (digits : String)
  deriving DecidableEq, Repr

/-- The wording of a fault. -/
def ScanFault.message : ScanFault → String
  | .unterminatedComment => "Unterminated block comment"
  | .unexpectedCharacter char => s!"Unexpected character '{char}'"
  | .numberOutOfRange digits => s!"Number literal {digits} is out of range"

/-- What a piece of source text is. -/
inductive Piece.Kind
  /-- White space or a comment. -/
  | blank
  /-- A token. -/
  | token (kind : Token.Kind)
  /-- Text that is neither. -/
  | fault (fault : ScanFault)
  deriving DecidableEq, Repr

/-- A stretch of source text and what it is.  The text is kept whole, blanks and faults included. -/
structure Piece where
  /-- What the piece is. -/
  kind : Piece.Kind
  /-- Its characters. -/
  text : List Char
  deriving DecidableEq, Repr

namespace Piece

/-! ### Character classes -/

/-- White space: space, carriage return, tab and line feed. -/
def isBlank (c : Char) : Bool := c == ' ' || c == '\r' || c == '\t' || c == '\n'

/-- A word begins with a letter or an underscore. -/
def isWordStart (c : Char) : Bool := c.isAlpha || c == '_'

/-- A word goes on with letters, digits and underscores. -/
def isWordPart (c : Char) : Bool := c.isAlphanum || c == '_'

/-! ### The forms of a piece -/

/-- The characters up to and including the first `*/`, and those after it.  `seen`
holds the characters already passed, last one first. -/
def splitComment (seen : List Char) : List Char → Option (List Char × List Char)
  | [] => none
  | '*' :: '/' :: rest => some (('/' :: '*' :: seen).reverse, rest)
  | c :: rest => splitComment (c :: seen) rest

/-- What a word is: a boolean literal, a keyword, or an identifier.  It is looked up as a whole,
after all of it has been read. -/
def wordKind (word : String) : Token.Kind :=
  if word = "true" then .boolean true
  else if word = "false" then .boolean false
  else match Keyword.ofWord? word with
    | some keyword => .keyword keyword
    | none => .identifier word

/-- What a run of digits is: a number literal if its value is small enough, and one fault for the
whole run if not. -/
def numberKind (digits : List Char) : Kind :=
  let value := Nat.ofDigitChars 10 digits 0
  if value ≤ Token.maxNumber then .token (.number value)
  else .fault (.numberOutOfRange (String.ofList digits))

/-- The longest symbol at the front of `c :: rest`, or else `c` as a fault. -/
def symbol (c : Char) (rest : List Char) : Piece × List Char :=
  match Symbol.scan? c rest.head? with
  | some (symbol, false) => (⟨.token (.symbol symbol), [c]⟩, rest)
  | some (symbol, true) => (⟨.token (.symbol symbol), c :: rest.take 1⟩, rest.drop 1)
  | none => (⟨.fault (.unexpectedCharacter c), [c]⟩, rest)

/-- A comment that opens with `/*`, where `rest` follows the opener. -/
def blockComment (rest : List Char) : Piece × List Char :=
  match splitComment [] rest with
  | some (body, after) => (⟨.blank, '/' :: '*' :: body⟩, after)
  | none => (⟨.fault .unterminatedComment, '/' :: '*' :: rest⟩, [])

/-- The first piece of the text `c :: rest`, and what follows it. -/
def first (c : Char) (rest : List Char) : Piece × List Char :=
  if isBlank c then (⟨.blank, [c]⟩, rest)
  else if c.isDigit then
    let digits := c :: rest.takeWhile Char.isDigit
    (⟨numberKind digits, digits⟩, rest.dropWhile Char.isDigit)
  else if isWordStart c then
    let word := c :: rest.takeWhile isWordPart
    (⟨.token (wordKind (String.ofList word)), word⟩, rest.dropWhile isWordPart)
  else match c, rest with
    | '/', '/' :: rest =>
      (⟨.blank, '/' :: '/' :: rest.takeWhile (· != '\n')⟩, rest.dropWhile (· != '\n'))
    | '/', '*' :: rest => blockComment rest
    | c, rest => symbol c rest

/-! ### Nothing is lost -/

/-- A comment up to its end, and what follows, make up the text. -/
theorem splitComment_append {seen text body after : List Char}
    (h : splitComment seen text = some (body, after)) : body ++ after = seen.reverse ++ text := by
  fun_induction splitComment seen text with
  | case1 => simp at h
  | case2 seen rest =>
    simp only [Option.some.injEq, Prod.mk.injEq] at h
    obtain ⟨rfl, rfl⟩ := h
    simp
  | case3 seen c rest _ ih => simpa using ih h

theorem blockComment_text_append (rest : List Char) :
    (blockComment rest).1.text ++ (blockComment rest).2 = '/' :: '*' :: rest := by
  unfold blockComment
  split
  · next body after h => simpa using splitComment_append h
  · simp

theorem symbol_text_append (c : Char) (rest : List Char) :
    (symbol c rest).1.text ++ (symbol c rest).2 = c :: rest := by
  unfold symbol
  split
  · rfl
  · exact congrArg (c :: ·) (List.take_append_drop 1 rest)
  · rfl

/-- **Nothing is lost**: the first piece and what follows it make up the text. -/
theorem first_text_append (c : Char) (rest : List Char) :
    (first c rest).1.text ++ (first c rest).2 = c :: rest := by
  unfold first
  split
  · rfl
  split
  · simp
  split
  · simp
  split
  · simp
  · exact blockComment_text_append _
  · exact symbol_text_append _ _

/-- No piece is empty. -/
theorem text_first_ne (c : Char) (rest : List Char) : (first c rest).1.text ≠ [] := by
  unfold first
  split
  · simp
  split
  · simp
  split
  · simp
  split
  · simp
  · unfold blockComment
    split <;> simp
  · unfold symbol
    split <;> simp

/-- What follows the first piece is shorter than the text, so that cutting comes to an end. -/
theorem length_first_snd_le (c : Char) (rest : List Char) :
    (first c rest).2.length ≤ rest.length := by
  have h := congrArg List.length (first_text_append c rest)
  have hpos := List.length_pos_iff.mpr (text_first_ne c rest)
  simp only [List.length_append, List.length_cons] at h
  omega

end Piece

end OnePass
