import OnePass.Assembler.Call
import OnePass.Options
import OnePass.Scopes.Call

/-!
# The state of the pass

One pass over the tokens checks the source and emits its code.  It looks at one token
at a time.  An error is reported once: the rest of its statement is skipped up to the
next semicolon, and until the next item of a statement list begins nothing matches and
no further error is reported.

## Main definitions

* `State` — the lookahead and all that the pass builds.
* `State.advance` — passes the lookahead.
* `State.errorAt` — reports an error and recovers from it.
* `State.skipUnexpected` — passes over what begins no item.
-/

namespace OnePass

/-- The labels that `break` and `continue` branch to in one loop. -/
structure Loop where
  breakLabel : Label
  continueLabel : Label
  deriving DecidableEq, Repr

/-- The state of the pass.  The tokens before the lookahead have left their traces in the program,
the scopes and the reports, and are not kept. -/
structure State where
  /-- The token that is looked at. -/
  lookahead : Token
  /-- The tokens after it, up to the end of the input. -/
  rest : List Lexeme
  /-- What the names stand for. -/
  scopes : Scopes
  /-- The program being built. -/
  assembler : Assembler
  /-- What has been reported. -/
  diagnostics : Diagnostics
  /-- The loops around the lookahead within its method, the innermost first. -/
  loops : List Loop
  /-- The methods around the lookahead, the innermost first and the entry method last. -/
  methods : List MethodId
  /-- Whether the rest of a faulty statement has been skipped. -/
  recovering : Bool
  /-- What has been done. -/
  log : Array Event

namespace State

/-- The state before the first token has been looked at.  Its lookahead is a placeholder, which the
first advance replaces. -/
def start (lexemes : List Lexeme) : State where
  lookahead := ⟨.endOfInput, ⟨0, 0⟩⟩
  rest := lexemes
  scopes := .initial
  assembler := {}
  diagnostics := {}
  loops := []
  methods := []
  recovering := false
  log := #[]

/-- What can be matched: the lookahead, and nothing while recovering. -/
def current? (s : State) : Option Token.Kind :=
  if s.recovering then none else some s.lookahead.kind

/-- Whether the whole input has been passed. -/
def atEnd (s : State) : Bool := s.lookahead.kind = .endOfInput

/-- Adds a report, and logs it. -/
def report (d : Diagnostic) (s : State) : State :=
  { s with diagnostics := s.diagnostics.report d, log := s.log.push (.reported d) }

/-- Looks at a new token, after reporting the scan errors on the way to it. -/
def lookAt (lexeme : Lexeme) (rest : List Lexeme) (s : State) : State :=
  let s := lexeme.errors.foldl (fun s e => s.report (.scan e)) s
  { s with
    lookahead := lexeme.token
    rest := rest
    log := s.log.push (.advance lexeme.token) }

/-- Passes the lookahead.  At the end of the input nothing comes after it, and it stays. -/
def advance (s : State) : State :=
  match s.rest with
  | [] => s
  | lexeme :: rest => s.lookAt lexeme rest

/-- Passes tokens up to and including the next semicolon, or up to the end of the input.
The lexemes given are the ones after the lookahead. -/
def skip (s : State) : List Lexeme → State
  | [] => s
  | lexeme :: rest =>
    if s.atEnd then s
    else if s.lookahead.kind = .symbol .semicolon then s.lookAt lexeme rest
    else skip (s.lookAt lexeme rest) rest

/-- Skips the rest of a faulty statement.  From then on nothing matches, until an item begins. -/
def recover (s : State) : State :=
  let s := s.skip s.rest
  { s with recovering := true }

/-- Reports an error and recovers from it.  One that follows another before recovery is over is only
logged. -/
def errorAt (p : Position) (e : ParseError) (s : State) : State :=
  if s.recovering then { s with log := s.log.push (.suppressed p e) }
  else (s.report (.parse p e)).recover

/-- Passes over a token that begins no item, and over the rest of its statement. -/
def skipUnexpected (s : State) : State :=
  let s := if s.recovering then s
    else s.report (.parse s.lookahead.position (.unexpectedToken s.lookahead.kind.describe))
  s.recover

end State

end OnePass
