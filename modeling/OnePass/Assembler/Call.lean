import OnePass.Assembler.Basic
import OnePass.Event

/-!
# Calls to the assembler

Every request to the assembler is a call, so that a run of requests is a list of
calls.  Numbers and labels in a call may be made up; the assembler checks them.

## Main definitions

* `Assembler.Call`, `Assembler.Call.Answer` — the requests, and what each answers.
* `Assembler.Call.run` — carries out a call.
* `Assembler.Call.perform` — carries out a call and logs it.
* `Assembler.finish` — ends all open methods and gives the program.
-/

namespace OnePass.Assembler

/-- The requests to the assembler.  They are all that the pass can do to the program it builds. -/
inductive Call
  | beginProgram (name : String)
  | declareMethod (name : String) (returnType : Ty) (parameters : List Ty)
  | declareParameter (method : MethodId) (name : String) (ordinal : Nat) (type : Ty)
  | endMethod
  | declareLocal (name : String) (type : Ty)
  | returnType
  | newLabel
  | bindLabel (label : Label)
  | branch (label : Label)
  | branchIfFalse (label : Label)
  | loadParameter (slot : ParameterSlot)
  | emit (operation : Operation)
  deriving DecidableEq, Repr

namespace Call

/-- What a call answers: the number or the slot of what it declares, and otherwise what it has found
out. -/
abbrev Answer : Call → Type
  | .beginProgram _ => MethodId
  | .declareMethod _ _ _ => MethodId
  | .declareParameter _ _ _ _ => ParameterSlot
  | .endMethod => Method.Closed
  | .declareLocal _ _ => LocalSlot
  | .returnType => Ty
  | .newLabel => Label
  | .bindLabel _ => Nat
  | .branch _ => Unit
  | .branchIfFalse _ => Unit
  | .loadParameter _ => Unit
  | .emit _ => Unit

/-- Carries out a call.  Each call is one step of the assembler, without a log. -/
def run : (c : Call) → Assembling c.Answer
  | .beginProgram name => Assembler.beginProgram name
  | .declareMethod name type parameters => Assembler.declareMethod name type parameters
  | .declareParameter method name ordinal type =>
    Assembler.declareParameter method name ordinal type
  | .endMethod => Assembler.endMethod
  | .declareLocal name type => Assembler.declareLocal name type
  | .returnType => Assembler.returnType
  | .newLabel => Assembler.newLabel
  | .bindLabel label => Assembler.bindLabel label
  | .branch label => Assembler.jump .branch label
  | .branchIfFalse label => Assembler.jump .branchIfFalse label
  | .loadParameter slot => Assembler.loadParameter slot
  | .emit operation => Assembler.emit operation

/-- What is logged before a call is carried out, whether it succeeds or not. -/
def announcement : Call → List Event
  | .emit operation => [.emitted operation]
  | _ => []

/-- What a call that succeeds adds to the log, given its answer. -/
def events : (c : Call) → c.Answer → List Event
  | .beginProgram name, _ => [.beganProgram name, .declaredMethod "main" .void 0]
  | .declareMethod name type parameters, _ => [.declaredMethod name type parameters.length]
  | .endMethod, closed => [.finishedMethod closed.name closed.size]
  | .bindLabel label, offset => [.boundLabel label.index offset]
  | .loadParameter slot, _ => [.emitted (.loadArg slot.ordinal)]
  | _, _ => []

/-- Carries out a call and logs it.  A call that fails leaves only its announcement in the log. -/
def perform (c : Call) : EStateM Fault (Logged Assembler) c.Answer := do
  Logged.record c.announcement
  let answer ← Logged.silently c.run
  Logged.record (c.events answer)
  return answer

end Call

/-- Ends the innermost open methods, `count` of them, from the inside out. -/
def endMethods : (count : Nat) → EStateM Fault (Logged Assembler) Unit
  | 0 => return
  | count + 1 => do
    let _ ← Call.endMethod.perform
    endMethods count

/-- Ends all open methods and gives the program.  A label without an offset in one of them makes it
fail. -/
def finish : EStateM Fault (Logged Assembler) Program := do
  endMethods (← get).value.opened.length
  match (← get).value.program with
  | some program => return program
  | none => throw .noProgram

end OnePass.Assembler
