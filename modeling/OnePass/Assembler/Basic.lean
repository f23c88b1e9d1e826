import OnePass.Assembler.Code

/-!
# The assembler

The assembler builds a program.  Methods are declared inside each other; code,
locals and labels always go to the innermost method that is still open.

## Main definitions

* `Assembler` — the program so far, and the methods that are open.
* `Assembling` — steps that change the assembler and can fail.
* `Assembler.onMethod`, `Assembler.onCurrent` — steps on one method.

## Main results

* `Assembler.onMethod_of_lt` — a step on a method changes nothing else.
-/

namespace OnePass

/-- A program being built.  The open methods are numbers of methods of the program. -/
structure Assembler where
  /-- The program, once it has been started. -/
  program : Option Program := none
  /-- The methods that are open, the innermost first. -/
  opened : List MethodId := []
  deriving DecidableEq, Repr

/-- A step that changes the assembler, and can fail. -/
abbrev Assembling := EStateM Fault Assembler

namespace Assembler

/-- What stands in for a method while a step works on it.  No step ever sees it. -/
def vacant : Method := { name := "", returnType := .void }

/-- Runs a step on one method.  A step that fails may have changed the method, and that change is
kept. -/
def onMethod {α : Type} (id : MethodId) (step : Coding α) : Assembling α
  | ⟨none, opened⟩ => .error .noProgram ⟨none, opened⟩
  | ⟨some ⟨name, methods⟩, opened⟩ =>
    if h : id < methods.size then
      let method := methods[id]
      -- The method is taken out of the program, so that the step can change it in place.
      let others := methods.set id vacant
      match step method with
      | .ok answer method => .ok answer ⟨some ⟨name, others.setIfInBounds id method⟩, opened⟩
      | .error f method => .error f ⟨some ⟨name, others.setIfInBounds id method⟩, opened⟩
    else .error .unknownMethod ⟨some ⟨name, methods⟩, opened⟩

/-- A step on a method that exists changes that method and nothing else. -/
theorem onMethod_of_lt {α : Type} {id : MethodId} {step : Coding α} {name : String}
    {methods : Array Method} {opened : List MethodId} (h : id < methods.size) :
    onMethod id step ⟨some ⟨name, methods⟩, opened⟩ =
      match step methods[id] with
      | .ok answer method => .ok answer ⟨some ⟨name, methods.set id method⟩, opened⟩
      | .error f method => .error f ⟨some ⟨name, methods.set id method⟩, opened⟩ := by
  rw [onMethod, dif_pos h]
  cases hs : step methods[id] <;> simp [hs, Array.setIfInBounds, h]

/-- Runs a step on the innermost open method; the step is told its number. -/
def onCurrent {α : Type} (step : MethodId → Coding α) : Assembling α := fun a =>
  match a.opened with
  | [] => .error .noOpenMethod a
  | id :: _ => onMethod id (step id) a

/-- Declares a method and opens it.  A program without a name is started if there is
none. -/
def declareMethod (name : String) (returnType : Ty) (parameters : List Ty) :
    Assembling MethodId
  | ⟨program, opened⟩ =>
    let method : Method :=
      { name, returnType, parameters := (parameters.map fun type => ⟨type, none⟩).toArray }
    let ⟨title, methods⟩ := program.getD ⟨"", #[]⟩
    let id := methods.size
    .ok id ⟨some ⟨title, methods.push method⟩, id :: opened⟩

/-- Starts a program with its entry method, in place of whatever was there. -/
def beginProgram (name : String) : Assembling MethodId := fun _ =>
  declareMethod "main" .void [] ⟨some ⟨name, #[]⟩, []⟩

/-- Names a parameter of a method, and answers the slot it can be loaded from. -/
def declareParameter (method : MethodId) (name : String) (ordinal : Nat) (type : Ty) :
    Assembling ParameterSlot := do
  onMethod method (Method.nameParameter name ordinal type)
  return ⟨method, ordinal⟩

/-- Declares a local variable of the innermost open method, and answers its slot. -/
def declareLocal (name : String) (type : Ty) : Assembling LocalSlot :=
  onCurrent fun id => return ⟨id, ← Method.addLocal ⟨name, type⟩⟩

/-- A new label of the innermost open method. -/
def newLabel : Assembling Label := onCurrent fun id => return ⟨id, ← Method.addLabel⟩

/-- The return type of the innermost open method. -/
def returnType : Assembling Ty := onCurrent fun _ => return (← get).returnType

/-- Runs a step on the innermost open method, which has to own the label. -/
def onLabel {α : Type} (label : Label) (step : Nat → Coding α) : Assembling α :=
  onCurrent fun id =>
    if label.method = id then step label.index else throw (.foreignLabel label)

/-- Gives a label the offset of the next instruction, and answers that offset. -/
def bindLabel (label : Label) : Assembling Nat := onLabel label Method.bindLabel

/-- Adds a branch to a label, which the innermost open method has to own. -/
def jump (branch : Target → Instruction) (label : Label) : Assembling Unit :=
  onLabel label (Method.jump branch)

/-- Adds an operation to the innermost open method. -/
def emit (operation : Operation) : Assembling Unit :=
  onCurrent fun _ => Method.add (.plain operation)

/-- Loads a parameter, which the innermost open method has to own. -/
def loadParameter (slot : ParameterSlot) : Assembling Unit :=
  onCurrent fun id =>
    if slot.method = id then Method.add (.plain (.loadArg slot.ordinal))
    else throw (.foreignParameter slot)

/-- Ends the innermost open method, so that the one around it is the innermost again. -/
def endMethod : Assembling Method.Closed := do
  let closed ← onCurrent fun _ => Method.close
  modify fun a => { a with opened := a.opened.tail }
  return closed

end Assembler

end OnePass
