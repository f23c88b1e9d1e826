import OnePass.Token.Cursor

/-!
# Lexemes

The productions look at one token at a time and take the scan errors on the way to it along
with it.  So what they are given is a list of lexemes: each token together with the scan
errors that are read just before it.

## Main definitions

* `Lexeme` — a token with the scan errors in front of it.
* `Lexeme.group` — readings grouped by token.
* `lexemes source` — the lexemes of a source.
-/

namespace OnePass

/-- A token with the scan errors met on the way to it. -/
structure Lexeme where
  /-- The scan errors between the token before and this one. -/
  errors : List ScanError
  /-- The token. -/
  token : Token
  deriving DecidableEq, Repr

namespace Lexeme

/-- Groups readings by token.  `errors` holds the scan errors since the last token and
`done` the lexemes so far, both last one first. -/
def groupOnto (errors : List ScanError) (done : List Lexeme) : List Reading → List Lexeme
  | [] => done.reverse
  | .error e :: rest => groupOnto (e :: errors) done rest
  | .ok token :: rest => groupOnto [] (⟨errors.reverse, token⟩ :: done) rest

/-- Each token of a list of readings, with the scan errors before it. -/
def group (readings : List Reading) : List Lexeme := groupOnto [] [] readings

/-- The lexemes so far come first. -/
theorem groupOnto_eq_append (errors : List ScanError) (done : List Lexeme)
    (readings : List Reading) :
    groupOnto errors done readings = done.reverse ++ groupOnto errors [] readings := by
  induction readings generalizing errors done with
  | nil => simp [groupOnto]
  | cons reading rest ih =>
    cases reading with
    | error e => rw [groupOnto, groupOnto, ih]
    | ok token =>
      rw [groupOnto, groupOnto, ih, ih _ [⟨errors.reverse, token⟩]]
      simp

end Lexeme

/-- The lexemes of a source; the last one is the end of the input. -/
def lexemes (source : String) : List Lexeme := Lexeme.group (read source)

end OnePass
