import OnePass.Diagnostic
import OnePass.Entity

/-!
# The log

Every step of a compilation can be followed in a log.  An event has a level, a
message and named fields, and is worded only when the log is shown.

## Main definitions

* `Level`, `Level.shows` — how severe an event is, and which events a filter lets
  through.
* `Event` — the steps that are logged.
* `Event.level`, `Event.message`, `Event.fields`, `Event.line` — their wording.
* `Logged` — a value with the log of what was done to it.
-/

namespace OnePass

/-- How severe an event is, the least severe first. -/
inductive Level
  | trace | debug | info | warn | error
  deriving DecidableEq, Repr

namespace Level

/-- The name of a level in a log line. -/
def text : Level → String
  | .trace => "TRACE"
  | .debug => "DEBUG"
  | .info => "INFO"
  | .warn => "WARN"
  | .error => "ERROR"

/-- The order of severity, as a number: the more severe, the larger. -/
def rank : Level → Nat
  | .trace => 0
  | .debug => 1
  | .info => 2
  | .warn => 3
  | .error => 4

/-- Whether a filter at `threshold` lets an event through: the event has to be at least
as severe.  Without a threshold nothing passes. -/
def shows (threshold : Option Level) (level : Level) : Bool :=
  match threshold with
  | some least => least.rank ≤ level.rank
  | none => false

end Level

/-- The steps that are logged.  An event keeps the data of its step, and is put into words only when
it is shown. -/
inductive Event
  /-- A token became the lookahead. -/
  | advance (token : Token)
  | reported (diagnostic : Diagnostic)
  /-- An error that follows one already reported, and is reported no more. -/
  | suppressed (position : Position) (error : ParseError)
  /-- The print command names an entity. -/
  | printed (entity : Entity) (inCurrentScope : Bool)
  | enteredScope (depth : Nat)
  | exitedScope (depth : Nat)
  | beganProgram (name : String)
  | declaredMethod (name : String) (returnType : Ty) (parameters : Nat)
  | finishedMethod (name : String) (instructions : Nat)
  | boundLabel (label : Nat) (offset : Nat)
  | emitted (operation : Operation)
  /-- All of a source was parsed. -/
  | parsed (program : String) (errors warnings : Nat)
  | aborted (error : FatalError)
  deriving DecidableEq, Repr

/-- A named field of an event, as it stands in a log line. -/
structure Field where
  name : String
  value : String
  /-- Whether a log line shows the value in double quotes. -/
  quoted : Bool := false
  deriving DecidableEq, Repr

namespace Event

/-- How severe an event is. -/
def level : Event → Level
  | .advance _ => .trace
  | .reported _ => .debug
  | .suppressed _ _ => .debug
  | .printed _ _ => .info
  | .enteredScope _ => .debug
  | .exitedScope _ => .debug
  | .beganProgram _ => .debug
  | .declaredMethod _ _ _ => .debug
  | .finishedMethod _ _ => .debug
  | .boundLabel _ _ => .debug
  | .emitted _ => .trace
  | .parsed _ _ _ => .info
  | .aborted _ => .warn

/-- What happened, in the words that begin a log line after its level. -/
def message : Event → String
  | .advance _ => "advance"
  | .reported _ => "reported"
  | .suppressed _ _ => "suppressed follow-on error"
  | .printed _ _ => "printf"
  | .enteredScope _ => "entered scope"
  | .exitedScope _ => "exited scope"
  | .beganProgram _ => "begin program"
  | .declaredMethod _ _ _ => "declared method"
  | .finishedMethod _ _ => "finished method"
  | .boundLabel _ _ => "bound label"
  | .emitted _ => "emit"
  | .parsed _ _ _ => "parsed"
  | .aborted _ => "compilation aborted"

/-- The details of what happened, in the order a log line shows them. -/
def fields : Event → List Field
  | .advance token =>
    [⟨"token", token.kind.describe, false⟩, ⟨"line", toString token.position.line, false⟩]
  | .reported diagnostic => [⟨"diagnostic", diagnostic.text, false⟩]
  | .suppressed position error =>
    [⟨"kind", error.message, false⟩, ⟨"line", toString position.line, false⟩,
      ⟨"column", toString position.column, false⟩]
  | .printed entity inCurrentScope =>
    [⟨"symbol", entity.text, false⟩, ⟨"ty", entity.ty.spelling, false⟩,
      ⟨"current_scope", if inCurrentScope then "true" else "false", false⟩]
  | .enteredScope depth => [⟨"depth", toString depth, false⟩]
  | .exitedScope depth => [⟨"depth", toString depth, false⟩]
  | .beganProgram name => [⟨"name", name, true⟩]
  | .declaredMethod name returnType parameters =>
    [⟨"name", name, true⟩, ⟨"return_type", returnType.spelling, false⟩,
      ⟨"parameters", toString parameters, false⟩]
  | .finishedMethod name instructions =>
    [⟨"name", name, false⟩, ⟨"instructions", toString instructions, false⟩]
  | .boundLabel label offset =>
    [⟨"label", toString label, false⟩, ⟨"offset", toString offset, false⟩]
  | .emitted operation => [⟨"instruction", operation.text, false⟩]
  | .parsed program errors warnings =>
    [⟨"program", program, false⟩, ⟨"errors", toString errors, false⟩,
      ⟨"warnings", toString warnings, false⟩]
  | .aborted error => [⟨"error", error.message, false⟩]

/-- An event as a line of a log: level, message, and then its fields in order. -/
def line (e : Event) : String :=
  let details := e.fields.map fun field =>
    let value := if field.quoted then Text.quoted field.value else field.value
    s!" {field.name}={value}"
  s!"{e.level.text} {e.message}" ++ String.join details

end Event

/-! ### Logged values -/

/-- A value together with the log of what was done to it.  Steps on the value carry the log
along. -/
structure Logged (σ : Type) where
  /-- The value as it is now. -/
  value : σ
  /-- What was done to it, in order. -/
  log : Array Event := #[]

namespace Logged

variable {ε σ α : Type}

/-- Adds events to the log; the value stays as it is. -/
def record (events : List Event) : EStateM ε (Logged σ) Unit
  | ⟨value, log⟩ => .ok () ⟨value, log.appendList events⟩

/-- Runs a step on the value; the log stays as it is. -/
def silently (step : EStateM ε σ α) : EStateM ε (Logged σ) α
  | ⟨value, log⟩ =>
    match step value with
    | .ok answer value => .ok answer ⟨value, log⟩
    | .error e value => .error e ⟨value, log⟩

end Logged

end OnePass
