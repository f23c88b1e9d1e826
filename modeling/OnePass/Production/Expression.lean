import OnePass.Production.Variable

/-!
# Expressions

The levels of an expression, from a single operand up to a comparison.  Every level
answers `none` if its first token cannot begin an operand, and otherwise the type of
what it matched.  A level is given the production of its operands, so that each level
can be understood on its own.

An assignment passes its own semicolon and leaves no value: its type is `void`, and no
level looks for an operator after it.

## Main definitions

* `assignment`, `named`, `primary` — assignments, names and literals.
* `chain`, `multiplicative`, `additive`, `relational` — the operator levels.
* `expression` — all levels together.
-/

namespace OnePass.Production

/-! ### Operands -/

/-- What follows the equal sign of an assignment to a name standing at `p`. -/
def assignment (expression : Production (Option Ty)) (entity : Entity) (name : String)
    (p : Position) : Production Ty := do
  let valuePosition ← position
  let value ← operand expression
  store entity name p value valuePosition
  expect .semicolon
  return .void

/-- What a name standing for an entity begins: an assignment, or just its value. -/
def use (options : Options) (expression : Production (Option Ty)) (entity : Entity)
    (name : String) (p : Position) : Production Ty := do
  if ← accept (.symbol .equal) then assignment expression entity name p
  else return (← load options entity name p).getD .unknown

/-- What a name begins.  A name that was not declared is reported, and the statement
with it is skipped. -/
def named (options : Options) (expression : Production (Option Ty)) (name : String)
    (p : Position) : Production Ty := do
  match ← view (·.scopes.find? name) with
  | some entity => use options expression entity name p
  | none =>
    errorAt p (.undeclared name)
    return .unknown

/-- The tokens that begin an operand.  An expression in parentheses is none. -/
inductive Atom
  | number (value : Nat)
  | boolean (value : Bool)
  | name (text : String)
  deriving DecidableEq, Repr

/-- The operand a token begins. -/
def Atom.ofKind? : Token.Kind → Option Atom
  | .number value => some (.number value)
  | .boolean value => some (.boolean value)
  | .identifier text => some (.name text)
  | _ => none

/-- A literal, the value of a name, or an assignment. -/
def primary (options : Options) (expression : Production (Option Ty)) :
    Production (Option Ty) := do
  let p ← position
  match ← accept? Atom.ofKind? with
  | none => return none
  | some (.number value) =>
    emit (.loadInt value)
    return some .int
  | some (.boolean value) =>
    emit (.loadBool value)
    return some .bool
  | some (.name name) => return some (← named options expression name p)

/-! ### Operators -/

/-- The operators of one level.  The levels that go on from operator to operator are read by one
production, which is given these. -/
structure Operators (ω : Type) where
  /-- The operator with a given symbol, if it belongs to the level. -/
  ofSymbol? : Symbol → Option ω
  /-- The symbol of an operator. -/
  symbol : ω → Symbol
  /-- What an operator emits after a left operand of the given type. -/
  operation : ω → Ty → Operation

/-- The additive operators.  A plus sign after a string joins two strings. -/
def additiveOperators : Operators AdditiveOp where
  ofSymbol? := AdditiveOp.ofSymbol?
  symbol := AdditiveOp.symbol
  operation op left := if op = .add ∧ left = .string then .concat else .additive op

/-- The multiplicative operators.  What they emit does not depend on the types of their operands. -/
def multiplicativeOperators : Operators MultiplicativeOp where
  ofSymbol? := MultiplicativeOp.ofSymbol?
  symbol := MultiplicativeOp.symbol
  operation op _ := .multiplicative op

/-- The type of a binary operation; operands that do not fit are reported at the
operator. -/
def binaryType (p : Position) (operator : Symbol) (left right : Ty) : Production Ty := do
  match Ty.binary? operator left right with
  | some ty => return ty
  | none =>
    errorAt p (.incompatibleOperands operator left right)
    return .unknown

/-- What follows a left operand: operators of one level and their right operands, taken
together from the left. -/
def chain {ω : Type} (operators : Operators ω) (level : Production (Option Ty)) :
    (budget : Nat) → (left : Ty) → Production Ty
  | 0, left => return left
  | budget + 1, left => do
    let p ← position
    match ← operator? operators.ofSymbol? with
    | none => return left
    | some op =>
      let right ← operand level
      let ty ← binaryType p (operators.symbol op) left right
      emit (operators.operation op left)
      chain operators level budget ty

/-- Operands joined by multiplicative operators.  After an assignment no operator is looked for. -/
def multiplicative (budget : Nat) (primary : Production (Option Ty)) :
    Production (Option Ty) := do
  match ← primary with
  | none => return none
  | some left =>
    if left = .void then return some .void
    else return some (← chain multiplicativeOperators primary budget left)

/-- The signs an expression can begin with. -/
def sign? : Symbol → Option Symbol
  | .plus => some .plus
  | .minus => some .minus
  | _ => none

/-- The type of a signed operand; one that takes no sign is reported at the sign. -/
def signedType (p : Position) (sign : Symbol) (operand : Ty) : Production Ty := do
  match Ty.unary? operand with
  | some ty => return ty
  | none =>
    errorAt p (.incompatibleOperand sign operand)
    return .unknown

/-- Emits what a sign does to its operand, which for a plus sign is nothing. -/
def emitSign (sign : Symbol) : Production Unit :=
  match UnaryOp.ofSymbol? sign with
  | some op => emit (.unary op)
  | none => return

/-- The first operand of the additive level, which may have a sign.  The sign covers all that the
multiplicative level takes. -/
def firstTerm (budget : Nat) (primary : Production (Option Ty)) :
    Production (Option Ty) := do
  let p ← position
  match ← operator? sign? with
  | none => multiplicative budget primary
  | some sign =>
    let term ← operand (multiplicative budget primary)
    let ty ← signedType p sign term
    emitSign sign
    return some ty

/-- Operands joined by additive operators.  Only the first of them may have a sign. -/
def additive (budget : Nat) (primary : Production (Option Ty)) :
    Production (Option Ty) := do
  match ← firstTerm budget primary with
  | none => return none
  | some left =>
    if left = .void then return some .void
    else return some (← chain additiveOperators (multiplicative budget primary) budget left)

/-- What follows the left side of a possible comparison, which has at most one
operator. -/
def comparison (budget : Nat) (primary : Production (Option Ty)) (left : Ty) :
    Production Ty := do
  let p ← position
  match ← operator? ComparisonOp.ofSymbol? with
  | none => return left
  | some op =>
    let right ← operand (additive budget primary)
    check (left.comparable right) p (.incomparable left right)
    emit (.compare op)
    return .bool

/-- One operand, or two of them compared.  A comparison is a `bool`, also where it is reported as
wrong. -/
def relational (budget : Nat) (primary : Production (Option Ty)) :
    Production (Option Ty) := do
  match ← additive budget primary with
  | none => return none
  | some left =>
    if left = .void then return some .void
    else return some (← comparison budget primary left)

/-- An expression.  Every assignment in it and every operator passes a token, so a budget
not below the number of tokens left is never used up before the input. -/
def expression (options : Options) : (budget : Nat) → Production (Option Ty)
  | 0 => return none
  | budget + 1 => fun s =>
    relational budget (primary options fun s => expression options budget s) s

end OnePass.Production
