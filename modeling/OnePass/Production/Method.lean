import OnePass.Production.Statement

/-!
# Fields and methods

A declaration begins with a type and a name; a parenthesis after them makes it a
method, and otherwise it is a field.  Fields are locals of the method around them.

## Main definitions

* `field` — the rest of a field.
* `Formal`, `formals` — the parameters of a method.
* `method` — the rest of a method: parameters, and a block as its body.
* `declarationForm` — a whole declaration.
-/

namespace OnePass.Production

/-- Reports a name standing at `p` that the innermost scope already declares. -/
def checkFresh (kind : DeclarationKind) (name : String) (p : Position) : Production Unit := do
  let declared ← view (·.scopes.declaredHere name)
  check (!declared) p (.redeclared kind name)

/-! ### Fields -/

/-- Declares a local variable of the method being read, in the program and then in the scopes. -/
def declareLocal (name : String) (ty : Ty) : Production Unit := do
  let slot ← assemble (.declareLocal name ty)
  let _ ← scope (.declareLocal name ty slot)

/-- The rest of a field, after its type and its name.  A field declared twice is reported
and then declared; one of type `void` is only reported. -/
def field (ty : Ty) (name : String) (p : Position) : Production Unit := do
  checkFresh .field name p
  if ty = .void then errorAt p (.voidField name)
  else
    declareLocal name ty
    expect .semicolon

/-! ### Parameters -/

/-- A parameter of a method whose header is being read.  It is declared in the scopes already, and
not yet in the program. -/
structure Formal where
  id : EntityId
  name : String
  ty : Ty
  ordinal : Nat
  deriving DecidableEq, Repr

/-- Declares a parameter with the given ordinal.  More than a method can have end the pass. -/
def declareFormal (name : String) (ty : Ty) (ordinal : Nat) : Production Formal := do
  if ordinal ≤ Method.maxParameters then
    let id ← scope (.declareParameter name ty ordinal)
    return ⟨id, name, ty, ordinal⟩
  else halt (.broken .tooManyParameters)

/-- A parameter after its type.  Without a name, or of type `void`, it is only
reported. -/
def formalOf (ty : Ty) (ordinal : Nat) : Production (Option Formal) := do
  let p ← position
  match ← identifier? with
  | none =>
    error .expectedIdentifier
    return none
  | some name =>
    if ty = .void then
      errorAt p (.voidParameter name)
      return none
    else
      checkFresh .parameter name p
      return some (← declareFormal name ty ordinal)

/-- One parameter with the given ordinal.  Where no type begins, there is none. -/
def formal (ordinal : Nat) : Production (Option Formal) := do
  match ← type? with
  | none => return none
  | some ty => formalOf ty ordinal

/-- Parameters with commas between them, after those already in `done`.  A comma may also
follow the last one. -/
def formals : (budget : Nat) → (done : Array Formal) → Production (Array Formal)
  | 0, done => return done
  | budget + 1, done => do
    match ← formal (done.size + 1) with
    | none => return done
    | some parameter =>
      if ← accept (.symbol .comma) then formals budget (done.push parameter)
      else return done.push parameter

/-- Names a parameter in the program, and tells the scopes its slot. -/
def attachFormal (method : MethodId) (parameter : Formal) : Production Unit := do
  let slot ← assemble
    (.declareParameter method parameter.name parameter.ordinal parameter.ty)
  scope (.attachParameter parameter.id slot)

/-- Does the same for each of a list of parameters. -/
def attachFormals (method : MethodId) : List Formal → Production Unit
  | [] => return
  | parameter :: rest => do
    attachFormal method parameter
    attachFormals method rest

/-! ### Methods -/

/-- Opens the method in the program, once its parameters are known, and tells the scopes its
number. -/
def openMethod (entity : EntityId) (returnType : Ty) (name : String)
    (parameters : List Formal) : Production MethodId := do
  let id ← assemble (.declareMethod name returnType (parameters.map Formal.ty))
  attachFormals id parameters
  scope (.attachMethod entity id (parameters.map Formal.id))
  return id

/-- The body of a method, which has to be a block. -/
def body (budget : Nat) (item : Production Bool) : Production Unit := do
  if ← block budget item then return else error .expectedBlock

/-- A method after its opening parenthesis: parameters, and a block as its body. -/
def methodRest (budget : Nat) (item : Production Bool) (entity : EntityId) (returnType : Ty)
    (name : String) : Production Unit := do
  let parameters ← formals budget #[]
  expect .rightParen
  let id ← openMethod entity returnType name parameters.toList
  inMethod id (body budget item)
  let _ ← assemble .endMethod

/-- The rest of a method, after its type and its name.  A method declared twice is
reported and then declared. -/
def method (budget : Nat) (item : Production Bool) (returnType : Ty) (name : String)
    (p : Position) : Production Unit := do
  checkFresh .method name p
  let entity ← scope (.declareMethod name returnType)
  inScope (methodRest budget item entity returnType name)

/-! ### Declarations -/

/-- A declaration after its type and its name: the next token tells whether it is a method. -/
def declarationRest (budget : Nat) (item : Production Bool) (ty : Ty) (name : String)
    (p : Position) : Production Unit := do
  if ← accept (.symbol .leftParen) then method budget item ty name p else field ty name p

/-- A declaration after its type. -/
def declarationOf (budget : Nat) (item : Production Bool) (ty : Ty) : Production Unit := do
  let p ← position
  match ← identifier? with
  | none => error .expectedIdentifier
  | some name => declarationRest budget item ty name p

/-- A field or a method. -/
def declarationForm (budget : Nat) (item : Production Bool) : Production Bool := do
  match ← type? with
  | none => return false
  | some ty =>
    declarationOf budget item ty
    return true

end OnePass.Production
