/-!
# Symbols

Punctuation and operators.  Several symbols begin with the same character, and the longest
one that fits is the one that is read.  So a symbol is read by its first character and a
look at the next one.  How symbols are written is told by a table of its own, and the two
have to agree.

## Main definitions

* `Symbol` — the symbols of the language.
* `Symbol.chars`, `Symbol.spelling` — how a symbol is written.
* `Symbol.scan?` — what symbol a character begins.
* `Symbol.ofChars?` — what symbol a whole text is read as.

## Main results

* `Symbol.chars_of_scan?` — what is read as a symbol is how that symbol is written.
* `Symbol.exists_scan?` — **no symbol is missed**, and none is taken for a shorter one.
* `Symbol.ofChars?_eq_some_iff` — **the tables agree**: a text is read as a symbol exactly if
  it is how that symbol is written.
-/

namespace OnePass

/-- Punctuation and operators. -/
inductive Symbol
  | leftBrace | rightBrace | leftParen | rightParen | comma | semicolon | equal
  | plus | minus | star | slash | percent
  | amp | ampAmp | bar | barBar | caret
  | less | lessEqual | equalEqual | bangEqual | greaterEqual | greater
  deriving DecidableEq, Repr

namespace Symbol

/-- How a symbol is written, character by character. -/
def chars : Symbol → List Char
  | .leftBrace => ['{']
  | .rightBrace => ['}']
  | .leftParen => ['(']
  | .rightParen => [')']
  | .comma => [',']
  | .semicolon => [';']
  | .equal => ['=']
  | .plus => ['+']
  | .minus => ['-']
  | .star => ['*']
  | .slash => ['/']
  | .percent => ['%']
  | .amp => ['&']
  | .ampAmp => ['&', '&']
  | .bar => ['|']
  | .barBar => ['|', '|']
  | .caret => ['^']
  | .less => ['<']
  | .lessEqual => ['<', '=']
  | .equalEqual => ['=', '=']
  | .bangEqual => ['!', '=']
  | .greaterEqual => ['>', '=']
  | .greater => ['>']

/-- The text of a symbol. -/
def spelling (s : Symbol) : String := String.ofList s.chars

/-- The symbol that the character `c` begins, given the character that comes next, and
whether the symbol takes that character as well.  Some characters are a symbol by themselves
and begin a longer one too; the exclamation mark only begins a longer one. -/
def scan? (c : Char) (next : Option Char) : Option (Symbol × Bool) :=
  match c with
  | '{' => some (.leftBrace, false)
  | '}' => some (.rightBrace, false)
  | '(' => some (.leftParen, false)
  | ')' => some (.rightParen, false)
  | ',' => some (.comma, false)
  | ';' => some (.semicolon, false)
  | '+' => some (.plus, false)
  | '-' => some (.minus, false)
  | '*' => some (.star, false)
  | '/' => some (.slash, false)
  | '%' => some (.percent, false)
  | '^' => some (.caret, false)
  | '&' => some (if next = some '&' then (.ampAmp, true) else (.amp, false))
  | '|' => some (if next = some '|' then (.barBar, true) else (.bar, false))
  | '=' => some (if next = some '=' then (.equalEqual, true) else (.equal, false))
  | '<' => some (if next = some '=' then (.lessEqual, true) else (.less, false))
  | '>' => some (if next = some '=' then (.greaterEqual, true) else (.greater, false))
  | '!' => if next = some '=' then some (.bangEqual, true) else none
  | _ => none

/-- What is read as a symbol is how that symbol is written. -/
theorem chars_of_scan? {c : Char} {next : Option Char} {s : Symbol} {longer : Bool}
    (h : scan? c next = some (s, longer)) :
    s.chars = c :: if longer then next.toList else [] := by
  unfold scan? at h
  split at h
  -- the characters for which the next one matters
  case h_13 | h_14 | h_15 | h_16 | h_17 | h_18 => split at h <;> cases h <;> simp_all [chars]
  all_goals cases h <;> rfl

/-- **No symbol is missed**, and none is taken for a shorter one: if a symbol is written at the
front of a text, one that is at least as long is read. -/
theorem exists_scan? {s : Symbol} {c : Char} {rest : List Char} (h : s.chars <+: c :: rest) :
    ∃ s' longer, scan? c rest.head? = some (s', longer) ∧ s.chars.length ≤ s'.chars.length := by
  obtain ⟨tail, h⟩ := h
  -- each symbol fixes the first character, and the longer ones the next one too
  cases s <;> obtain ⟨rfl, rfl⟩ := List.cons.inj h <;> simp only [scan?, chars]
  case equal | amp | bar | less | greater => split <;> exact ⟨_, _, rfl, by decide⟩
  all_goals exact ⟨_, _, rfl, by decide⟩

/-- What symbol a whole text is read as, if it is one. -/
def ofChars? : List Char → Option Symbol
  | [] => none
  | c :: rest =>
    match scan? c rest.head? with
    | some (symbol, longer) => if rest.length = longer.toNat then some symbol else none
    | none => none

/-- Every symbol is read back from how it is written. -/
@[simp] theorem ofChars?_chars (s : Symbol) : ofChars? s.chars = some s := by
  cases s <;> rfl

/-- Nothing else is read as a symbol. -/
theorem chars_eq_of_ofChars? {text : List Char} {s : Symbol} (h : ofChars? text = some s) :
    s.chars = text := by
  unfold ofChars? at h
  split at h
  · cases h
  split at h
  · next c rest _ symbol longer hscan =>
    split at h
    · next hlength =>
      cases h
      rw [chars_of_scan? hscan]
      -- what is left of the text is empty, or just the next character
      cases longer with
      | false => rw [List.length_eq_zero_iff.mp hlength]; rfl
      | true => obtain ⟨d, rfl⟩ := List.length_eq_one_iff.mp hlength; rfl
    · cases h
  · cases h

/-- **The tables agree**: a text is read as a symbol exactly if it is how that symbol is
written. -/
theorem ofChars?_eq_some_iff {text : List Char} {s : Symbol} :
    ofChars? text = some s ↔ s.chars = text := by
  constructor
  · exact chars_eq_of_ofChars?
  · rintro rfl
    exact ofChars?_chars s

/-- No two symbols are written alike. -/
theorem chars_injective : Function.Injective chars := by
  intro s s' h
  have hread := ofChars?_chars s
  rw [h, ofChars?_chars] at hread
  exact (Option.some.inj hread).symm

end Symbol

end OnePass
