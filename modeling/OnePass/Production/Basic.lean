import OnePass.Production.State

/-!
# Productions

A production recognises a part of the grammar at the lookahead, checks it, and emits
its code.  It answers whether it matched, or the type of what it matched.  A production
that does not match passes no token.

## Main definitions

* `Halt` — what ends the pass early.
* `Production` — steps of the pass.
* `accept?`, `accept`, `expect` — matching one token.
* `error`, `errorAt`, `check`, `warn` — reporting.
* `assemble`, `scope` — calls to the assembler and to the scopes.
* `ensuring` — a step that is made however another one ends.
-/

namespace OnePass

/-- What ends the pass before the end of the input. -/
inductive Halt
  /-- A mistake that cannot be recovered from. -/
  | fatal (error : FatalError)
  /-- A broken invariant. -/
  | broken (fault : Fault)
  deriving DecidableEq, Repr

/-- The wording of what ended the pass. -/
def Halt.message : Halt → String
  | .fatal error => error.message
  | .broken fault => fault.message

/-- A step of the pass.  It may end the pass, and the state it leaves is kept then too. -/
abbrev Production (α : Type) := EStateM Halt State α

namespace Production

variable {α : Type}

/-- A view of the state, which stays as it is. -/
def view (f : State → α) : Production α := fun s => .ok (f s) s

/-- The position of the lookahead. -/
def position : Production Position := view (·.lookahead.position)

/-! ### Matching -/

/-- Passes the lookahead if `select` maps it to a value.  Otherwise, and while recovering, nothing
happens. -/
def accept? (select : Token.Kind → Option α) : Production (Option α) := fun s =>
  match s.current?.bind select with
  | some a => .ok (some a) s.advance
  | none => .ok none s

/-- Passes the lookahead if it is of the given kind, and answers whether it was. -/
def accept (kind : Token.Kind) : Production Bool := fun s =>
  if s.current? = some kind then .ok true s.advance else .ok false s

/-- Passes a name, be it declared or not. -/
def identifier? : Production (Option String) :=
  accept? fun
    | .identifier name => some name
    | _ => none

/-- Passes a symbol that `select` maps to an operator. -/
def operator? (select : Symbol → Option α) : Production (Option α) :=
  accept? fun
    | .symbol mark => select mark
    | _ => none

/-- Passes the name of a type. -/
def type? : Production (Option Ty) :=
  accept? fun
    | .keyword word => Ty.ofKeyword? word
    | _ => none

/-! ### Reporting -/

/-- Reports an error at a position.  The rest of the statement is skipped with it. -/
def errorAt (p : Position) (e : ParseError) : Production Unit := modify (State.errorAt p e)

/-- Reports an error at the lookahead. -/
def error (e : ParseError) : Production Unit :=
  modify fun s => s.errorAt s.lookahead.position e

/-- Reports an error at a position, unless all is well. -/
def check (well : Bool) (p : Position) (e : ParseError) : Production Unit :=
  if well then return else errorAt p e

/-- Reports a warning at a position, also while recovering. -/
def warn (p : Position) (w : Warning) : Production Unit := modify (State.report (.warning p w))

/-- Passes a symbol that has to be there.  Otherwise it is reported as expected, at the token in its
place. -/
def expect (mark : Symbol) : Production Unit := do
  if ← accept (.symbol mark) then return else error (.expectedSymbol mark)

/-- The answer of a production that has to match: its type, or no known type after an error is
reported. -/
def operand (level : Production (Option Ty)) : Production Ty := do
  match ← level with
  | some ty => return ty
  | none =>
    error .expectedExpression
    return .unknown

/-! ### Calls -/

/-- Calls the assembler.  A call that is refused ends the pass. -/
def assemble (c : Assembler.Call) : Production c.Answer := fun s =>
  let assembler := s.assembler
  let log := s.log
  -- Both are taken out of the state, so that the call can change them in place.
  let s := { s with assembler := {}, log := #[] }
  match c.perform ⟨assembler, log⟩ with
  | .ok answer l => .ok answer { s with assembler := l.value, log := l.log }
  | .error f l => .error (.broken f) { s with assembler := l.value, log := l.log }

/-- Calls the scopes.  A call that is refused ends the pass. -/
def scope (c : Scopes.Call) : Production c.Answer := fun s =>
  let scopes := s.scopes
  let log := s.log
  -- Both are taken out of the state, so that the call can change them in place.
  let s := { s with scopes := {}, log := #[] }
  match c.perform ⟨scopes, log⟩ with
  | .ok answer l => .ok answer { s with scopes := l.value, log := l.log }
  | .error f l => .error (.broken f) { s with scopes := l.value, log := l.log }

/-- A call to the assembler works on the program and the log of the state. -/
theorem assemble_apply (c : Assembler.Call) (s : State) :
    assemble c s =
      match c.perform ⟨s.assembler, s.log⟩ with
      | .ok answer l => .ok answer { s with assembler := l.value, log := l.log }
      | .error f l => .error (.broken f) { s with assembler := l.value, log := l.log } := rfl

/-- A call to the scopes works on the scopes and the log of the state. -/
theorem scope_apply (c : Scopes.Call) (s : State) :
    scope c s =
      match c.perform ⟨s.scopes, s.log⟩ with
      | .ok answer l => .ok answer { s with scopes := l.value, log := l.log }
      | .error f l => .error (.broken f) { s with scopes := l.value, log := l.log } := rfl

/-- Emits an operation. -/
def emit (operation : Operation) : Production Unit := assemble (.emit operation)

/-! ### Leaving -/

/-- Ends the pass.  Only steps that are made however it ends still follow. -/
def halt (h : Halt) : Production α := throw h

/-- Makes a step and then, however it ends, another one.  Where both fail, the failure of
the first one counts. -/
def ensuring (step : Production α) (last : Production Unit) : Production α := fun s =>
  match step s with
  | .ok a s =>
    match last s with
    | .ok _ s => .ok a s
    | .error h s => .error h s
  | .error h s =>
    match last s with
    | .ok _ s => .error h s
    | .error _ s => .error h s

/-- Runs a step inside one more loop, and leaves the loop however the step ends. -/
def inLoop (loop : Loop) (step : Production α) : Production α := do
  modify fun s => { s with loops := loop :: s.loops }
  ensuring step (modify fun s => { s with loops := s.loops.tail })

/-- Runs a step inside one more method, and leaves the method however the step ends. -/
def inMethod (method : MethodId) (step : Production α) : Production α := do
  modify fun s => { s with methods := method :: s.methods }
  ensuring step (modify fun s => { s with methods := s.methods.tail })

/-- Runs a step inside one more scope, where the loops outside are out of reach. -/
def inScope (step : Production α) : Production α := do
  scope .enter
  let loops ← view (·.loops)
  modify fun s => { s with loops := [] }
  ensuring step do
    modify fun s => { s with loops := loops }
    scope .exit

end Production

end OnePass
