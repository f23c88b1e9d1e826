import OnePass.Production.Basic

/-!
# Variables

What a name in an expression stands for can be loaded if it is a local variable or a
parameter within reach, and stored if it is a local variable within reach.  A method
reaches its own variables, and the locals of the entry method.

## Main definitions

* `within`, `reaches` — which variables can be used.
* `load` — pushes the value of a variable.
* `store` — takes a value into a variable.
-/

namespace OnePass.Production

/-- Whether the method being read is `owner`. -/
def within (owner : MethodId) : Production Bool :=
  view fun s => s.methods.head? = some owner

/-- Whether the method being read can use the locals of `owner`: they are its own, or
those of the entry method. -/
def reaches (owner : MethodId) : Production Bool :=
  view fun s => s.methods.head? = some owner ∨ s.methods.getLast? = some owner

/-- Reports an error and answers no type, for a name that cannot be loaded. -/
def refuse (p : Position) (e : ParseError) : Production (Option Ty) := do
  errorAt p e
  return none

/-! ### Loading -/

/-- The type of a local variable in an expression, as the options have it. -/
def localType (options : Options) (name : String) (declared : Ty) : Production Ty :=
  match options.typing with
  | .declared => return declared
  | .legacy => view fun s => if s.scopes.declaredHere name then .bool else .unknown

/-- Loads a local variable, if it is within reach. -/
def loadLocal (options : Options) (name : String) (p : Position) (ty : Ty)
    (slot : LocalSlot) : Production (Option Ty) := do
  if ← reaches slot.method then
    emit (.loadLocal slot)
    return some (← localType options name ty)
  else refuse p (.captured name)

/-- Loads a parameter, if it belongs to the method being read. -/
def loadParameter (name : String) (p : Position) (ty : Ty) (slot : ParameterSlot) :
    Production (Option Ty) := do
  if ← within slot.method then
    assemble (.loadParameter slot)
    return some ty
  else refuse p (.captured name)

/-- Loads what a name standing at `p` stands for, and answers its type.  What is no
variable within reach is reported. -/
def load (options : Options) (entity : Entity) (name : String) (p : Position) :
    Production (Option Ty) :=
  match entity with
  | .local _ ty slot => loadLocal options name p ty slot
  | .parameter _ ty _ (some slot) => loadParameter name p ty slot
  | .parameter _ _ _ none => refuse p (.captured name)
  | .method _ _ _ _ => refuse p (.notAValue name)
  | .type _ _ => refuse p (.notAValue name)

/-! ### Storing -/

/-- Stores a value in a local variable, if it is within reach.  A value that does not fit
is reported where it begins, and stored all the same. -/
def storeLocal (name : String) (p : Position) (ty : Ty) (slot : LocalSlot) (value : Ty)
    (valuePosition : Position) : Production Unit := do
  if ← reaches slot.method then
    check (ty.accepts value) valuePosition (.incompatibleAssignment ty value)
    emit (.convert ty value)
    emit (.storeLocal slot)
  else errorAt p (.captured name)

/-- Stores a value in what a name standing at `p` stands for.  What is no local variable
within reach is reported. -/
def store (entity : Entity) (name : String) (p : Position) (value : Ty)
    (valuePosition : Position) : Production Unit :=
  match entity with
  | .local _ ty slot => storeLocal name p ty slot value valuePosition
  | .parameter _ _ _ _ => errorAt p (.notAssignable name)
  | .method _ _ _ _ => errorAt p (.notAssignable name)
  | .type _ _ => errorAt p (.notAssignable name)

end OnePass.Production
