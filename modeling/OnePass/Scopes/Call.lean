import OnePass.Event
import OnePass.Scopes.Basic

/-!
# Calls to the scopes

Every change to the scopes is a call, so that a run of changes is a list of calls.

## Main definitions

* `Scopes.Call`, `Scopes.Call.Answer` — the changes, and what each answers.
* `Scopes.Call.run` — makes a change.
* `Scopes.Call.perform` — makes a change and logs it.
-/

namespace OnePass.Scopes

/-- The changes that can be made to the scopes.  Looking up a name changes nothing and is no
call. -/
inductive Call
  | enter
  | exit
  | declareGlobal (entity : Entity)
  | declareMethod (name : String) (returnType : Ty)
  | declareParameter (name : String) (ty : Ty) (ordinal : Nat)
  | declareLocal (name : String) (ty : Ty) (slot : LocalSlot)
  | attachMethod (id : EntityId) (method : MethodId) (parameters : List EntityId)
  | attachParameter (id : EntityId) (slot : ParameterSlot)
  deriving DecidableEq, Repr

namespace Call

/-- What a call answers: a declaration, the number of the new entity. -/
abbrev Answer : Call → Type
  | .enter => Unit
  | .exit => Unit
  | .declareGlobal _ => EntityId
  | .declareMethod _ _ => EntityId
  | .declareParameter _ _ _ => EntityId
  | .declareLocal _ _ _ => EntityId
  | .attachMethod _ _ _ => Unit
  | .attachParameter _ _ => Unit

/-- Makes a change.  Each call is one step of the scopes, without a log. -/
def run : (c : Call) → EStateM Fault Scopes c.Answer
  | .enter => modify Scopes.enter
  | .exit => Scopes.exit
  | .declareGlobal entity => modifyGet (Scopes.declareGlobal entity)
  | .declareMethod name returnType =>
    modifyGet (Scopes.declare (.method name returnType [] none))
  | .declareParameter name ty ordinal =>
    modifyGet (Scopes.declare (.parameter name ty ordinal none))
  | .declareLocal name ty slot => modifyGet (Scopes.declare (.local name ty slot))
  | .attachMethod id method parameters => Scopes.attachMethod id method parameters
  | .attachParameter id slot => Scopes.attachParameter id slot

/-- What a call that succeeds adds to the log, given the depth after it. -/
def events (depth : Nat) : Call → List Event
  | .enter => [.enteredScope depth]
  | .exit => [.exitedScope depth]
  | _ => []

/-- Makes a change and logs it.  A change that fails logs nothing. -/
def perform (c : Call) : EStateM Fault (Logged Scopes) c.Answer := do
  let answer ← Logged.silently c.run
  let depth := (← get).value.depth
  Logged.record (c.events depth)
  return answer

end Call

end OnePass.Scopes
