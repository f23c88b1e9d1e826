import OnePass.Production.Expression

/-!
# Statements

Each form of statement answers whether its first token matched.  The forms that hold
other statements are given the productions of those.

## Main definitions

* `firstOf`, `repeatedly` — choice and repetition.
* `block` — items in braces.
* `conditional`, `loop` — `if` and `while`.
* `expressionStatement`, `printStatement`, `bugStatement` — statements without labels of
  their own.
* `returnStatement`, `leaveStatement` — `return`, and `break` and `continue`.
* `statementForms` — all of them, in the order they are tried.
-/

namespace OnePass.Production

/-- Tries productions in order until one matches.  Those that do not match pass no token, so each
begins where the first one did. -/
def firstOf : List (Production Bool) → Production Bool
  | [] => return false
  | form :: forms => do
    if ← form then return true else firstOf forms

/-- Repeats a production as long as it matches.  It is always tried once more after its
last match. -/
def repeatedly (item : Production Bool) : (budget : Nat) → Production Unit
  | 0 => do
    let _ ← item
  | budget + 1 => do
    if ← item then repeatedly item budget else return

/-- Items in braces.  A block opens no scope. -/
def block (budget : Nat) (item : Production Bool) : Production Bool := do
  if ← accept (.symbol .leftBrace) then
    repeatedly item budget
    expect .rightBrace
    return true
  else return false

/-- A statement that has to be there.  Otherwise it is reported as expected, at the token in its
place. -/
def required (statement : Production Bool) : Production Unit := do
  if ← statement then return else error .expectedStatement

/-- An expression that has to be there and to be accepted by a type; otherwise `mismatch`
is reported where it begins. -/
def expressionOf (expected : Ty) (mismatch : Ty → ParseError)
    (expression : Production (Option Ty)) : Production Unit := do
  let p ← position
  match ← expression with
  | none => error .expectedExpression
  | some found => check (expected.accepts found) p (mismatch found)

/-! ### Branches -/

/-- An expression in parentheses that has to be a `bool`.  Where it is none, that is reported at the
expression. -/
def condition (expression : Production (Option Ty)) : Production Unit := do
  expect .leftParen
  expressionOf .bool .conditionNotBool expression
  expect .rightParen

/-- The `else` part of a conditional, if there is one; `otherwise` is where the conditional
goes if its condition fails. -/
def alternative (statement : Production Bool) (otherwise : Label) : Production Unit := do
  if ← accept (.keyword .else) then
    let after ← assemble .newLabel
    assemble (.branch after)
    let _ ← assemble (.bindLabel otherwise)
    required statement
    let _ ← assemble (.bindLabel after)
  else
    let _ ← assemble (.bindLabel otherwise)

/-- `if`, with or without `else`.  An `else` goes with the innermost `if` that has none yet. -/
def conditional (expression : Production (Option Ty)) (statement : Production Bool) :
    Production Bool := do
  if ← accept (.keyword .if) then
    condition expression
    let otherwise ← assemble .newLabel
    assemble (.branchIfFalse otherwise)
    required statement
    alternative statement otherwise
    return true
  else return false

/-- The condition and the body of a loop.  The condition is evaluated before every
round. -/
def rounds (expression : Production (Option Ty)) (statement : Production Bool)
    (loop : Loop) : Production Unit := do
  let _ ← assemble (.bindLabel loop.continueLabel)
  condition expression
  assemble (.branchIfFalse loop.breakLabel)
  required statement
  assemble (.branch loop.continueLabel)
  let _ ← assemble (.bindLabel loop.breakLabel)

/-- `while`.  Both labels are made before its condition, so that the body can use either of them. -/
def loop (expression : Production (Option Ty)) (statement : Production Bool) :
    Production Bool := do
  if ← accept (.keyword .while) then
    let continueLabel ← assemble .newLabel
    let breakLabel ← assemble .newLabel
    let labels : Loop := ⟨breakLabel, continueLabel⟩
    inLoop labels (rounds expression statement labels)
    return true
  else return false

/-- A statement that leaves a round of the innermost loop for one of its labels.  Outside
of a loop it ends the pass. -/
def leaveStatement (word : Keyword) (stray : Stray) (target : Loop → Label) :
    Production Bool := do
  let p ← position
  if ← accept (.keyword word) then
    match ← view (·.loops.head?) with
    | none => halt (.fatal ⟨p, stray⟩)
    | some loop =>
      expect .semicolon
      assemble (.branch (target loop))
      return true
  else return false

/-- The value of a `return` in a method with the given return type.  A method without a value takes
none. -/
def returnValue (expression : Production (Option Ty)) (expected : Ty) : Production Unit :=
  if expected = .void then return
  else expressionOf expected (.incompatibleReturn expected) expression

/-- `return`, with a value exactly if the method has one. -/
def returnStatement (expression : Production (Option Ty)) : Production Bool := do
  if ← accept (.keyword .return) then
    let expected ← assemble .returnType
    returnValue expression expected
    expect .semicolon
    emit .ret
    return true
  else return false

/-! ### Other statements -/

/-- Drops the value an expression leaves, if it leaves one. -/
def dropValue (ty : Ty) : Production Unit := if ty = .void then return else emit .pop

/-- An expression as a statement.  It ends with its last token: only an assignment has a semicolon
of its own. -/
def expressionStatement (expression : Production (Option Ty)) : Production Bool := do
  match ← expression with
  | none => return false
  | some ty =>
    dropValue ty
    return true

/-- Prints what a name standing at `p` stands for.  What cannot be loaded is reported and not
printed. -/
def printNamed (options : Options) (name : String) (p : Position) : Production Unit := do
  match ← view (·.scopes.find? name) with
  | none => errorAt p (.undeclared name)
  | some entity =>
    modify fun s =>
      { s with log := s.log.push (.printed entity (s.scopes.declaredHere name)) }
    if (← load options entity name p).isSome then emit .print else return

/-- Prints what the next token stands for, if it is a name. -/
def printArgument (options : Options) : Production Unit := do
  let p ← position
  match ← identifier? with
  | some name => printNamed options name p
  | none => return

/-- `printf`, of one name or of none. -/
def printStatement (options : Options) : Production Bool := do
  if ← accept (.keyword .printf) then
    expect .leftParen
    printArgument options
    expect .rightParen
    expect .semicolon
    return true
  else return false

/-- `bug`, which marks a statement as worth a look. -/
def bugStatement (statement : Production Bool) : Production Bool := do
  let p ← position
  if ← accept (.keyword .bug) then
    required statement
    expect .semicolon
    warn p .possibleBug
    return true
  else return false

/-! ### All forms -/

/-- The statements that stop the flow of control.  Options can leave them out. -/
def stopStatements (expression : Production (Option Ty)) : List (Production Bool) :=
  [returnStatement expression, leaveStatement .break .break Loop.breakLabel,
    leaveStatement .continue .continue Loop.continueLabel]

/-- All forms of statement, in the order they are tried. -/
def statementForms (options : Options) (budget : Nat) (expression : Production (Option Ty))
    (statement item : Production Bool) : List (Production Bool) :=
  [block budget item, conditional expression statement, loop expression statement,
    expressionStatement expression, accept (.symbol .semicolon), printStatement options,
    bugStatement statement]
  ++ if options.stopStatements then stopStatements expression else []

end OnePass.Production
