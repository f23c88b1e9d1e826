/-!
# Keywords

The reserved words of the language.  Messages write a keyword with one table, and the
source is read with another one: what a word is read as and how a keyword is written are
told apart from each other, and the two tables have to agree.

## Main definitions

* `Keyword` — the reserved words.
* `Keyword.spelling` — how a keyword is written.
* `Keyword.ofWord?` — what keyword a word is read as.

## Main results

* `Keyword.ofWord?_eq_some_iff` — **the tables agree**: a word is read as a keyword exactly
  if it is how that keyword is written.
-/

namespace OnePass

/-- The reserved words. -/
inductive Keyword
  | «if» | «else» | «while» | «return» | «break» | «continue» | bug | printf
  | int | bool | char | string | pchar | ref | void
  deriving DecidableEq, Repr

namespace Keyword

/-- How a keyword is written, in messages and in sources alike. -/
def spelling : Keyword → String
  | .if => "if"
  | .else => "else"
  | .while => "while"
  | .return => "return"
  | .break => "break"
  | .continue => "continue"
  | .bug => "bug"
  | .printf => "printf"
  | .int => "int"
  | .bool => "bool"
  | .char => "char"
  | .string => "string"
  | .pchar => "pchar"
  | .ref => "ref"
  | .void => "void"

/-- What keyword a word is read as, if it is one.  The whole word counts: a longer word that
begins like a keyword is none. -/
def ofWord? : String → Option Keyword
  | "if" => some .if
  | "else" => some .else
  | "while" => some .while
  | "return" => some .return
  | "break" => some .break
  | "continue" => some .continue
  | "bug" => some .bug
  | "printf" => some .printf
  | "int" => some .int
  | "bool" => some .bool
  | "char" => some .char
  | "string" => some .string
  | "pchar" => some .pchar
  | "ref" => some .ref
  | "void" => some .void
  | _ => none

/-- Every keyword is read back from how it is written. -/
@[simp] theorem ofWord?_spelling (k : Keyword) : ofWord? k.spelling = some k := by
  cases k <;> rfl

/-- Nothing else is read as a keyword. -/
theorem spelling_eq_of_ofWord? {word : String} {k : Keyword} (h : ofWord? word = some k) :
    k.spelling = word := by
  unfold ofWord? at h
  split at h <;> cases h <;> rfl

/-- **The tables agree**: a word is read as a keyword exactly if it is how that keyword is
written. -/
theorem ofWord?_eq_some_iff {word : String} {k : Keyword} :
    ofWord? word = some k ↔ k.spelling = word := by
  constructor
  · exact spelling_eq_of_ofWord?
  · rintro rfl
    exact ofWord?_spelling k

end Keyword

end OnePass
