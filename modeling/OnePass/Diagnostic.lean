import OnePass.Token.Lexeme
import OnePass.Ty

/-!
# Diagnostics

What a compilation reports about its source: scan errors, parse errors and
warnings, in the order they were found.  A fatal error is apart: it ends the pass.

## Main definitions

* `ParseError` — the mistakes that are reported and recovered from.
* `FatalError` — the mistakes that end the pass.
* `Diagnostic` — one report, with its position.
* `Diagnostics` — all reports, in order.
-/

namespace OnePass

/-- What kind of name was declared twice.  A local variable is called a field in messages. -/
inductive DeclarationKind
  | method | parameter | field
  deriving DecidableEq, Repr

/-- The wording of a kind of declaration. -/
def DeclarationKind.text : DeclarationKind → String
  | .method => "Method"
  | .parameter => "Parameter"
  | .field => "Field"

/-- The mistakes that are reported and recovered from.  An error carries what its message names, and
its position is kept apart from it. -/
inductive ParseError
  | expectedSymbol (symbol : Symbol)
  | expectedIdentifier
  | expectedExpression
  | expectedStatement
  | expectedBlock
  /-- A token that begins neither a declaration nor a statement, as messages name it. -/
  | unexpectedToken (token : String)
  | redeclared (kind : DeclarationKind) (name : String)
  | undeclared (name : String)
  | notAssignable (name : String)
  /-- The name of a method or a type where a value is needed. -/
  | notAValue (name : String)
  /-- A variable of an enclosing method. -/
  | captured (name : String)
  | voidField (name : String)
  | voidParameter (name : String)
  | conditionNotBool (found : Ty)
  | incomparable (left right : Ty)
  | incompatibleOperands (operator : Symbol) (left right : Ty)
  | incompatibleOperand (operator : Symbol) (operand : Ty)
  | incompatibleAssignment (target value : Ty)
  | incompatibleReturn (expected found : Ty)
  deriving DecidableEq, Repr

/-- The wording of a parse error, without its position. -/
def ParseError.message : ParseError → String
  | .expectedSymbol symbol => s!"Expected '{symbol.spelling}'"
  | .expectedIdentifier => "Expected identifier"
  | .expectedExpression => "Expected expression"
  | .expectedStatement => "Expected statement"
  | .expectedBlock => "Expected block"
  | .unexpectedToken token => s!"Unexpected {token}"
  | .redeclared kind name => s!"{kind.text} '{name}' is redeclared"
  | .undeclared name => s!"Undeclared identifier '{name}'"
  | .notAssignable name => s!"'{name}' is not an assignable variable"
  | .notAValue name => s!"'{name}' is not a value"
  | .captured name => s!"'{name}' belongs to an enclosing method and can't be used here"
  | .voidField name => s!"Field '{name}' can't be of type void"
  | .voidParameter name => s!"Parameter '{name}' can't be of type void"
  | .conditionNotBool found => s!"Condition must be bool, found {found.spelling}"
  | .incomparable left right => s!"Can't compare {left.spelling} with {right.spelling}"
  | .incompatibleOperands operator left right =>
    s!"Incompatible operand types {left.spelling} {operator.spelling} {right.spelling}"
  | .incompatibleOperand operator operand =>
    s!"Incompatible operand type {operator.spelling}{operand.spelling}"
  | .incompatibleAssignment target value =>
    s!"Can't assign {value.spelling} to {target.spelling}"
  | .incompatibleReturn expected found =>
    s!"Returned {found.spelling} isn't compatible with method type {expected.spelling}"

/-- What is worth a look but no mistake: a source with nothing but warnings compiles. -/
inductive Warning
  | possibleBug
  deriving DecidableEq, Repr

/-- The wording of a warning. -/
def Warning.message : Warning → String
  | .possibleBug => "The statement may contain a bug"

/-- Statements that leave a loop where there is none.  Such a statement ends the pass. -/
inductive Stray
  | break | continue
  deriving DecidableEq, Repr

/-- The wording of a stray statement. -/
def Stray.message : Stray → String
  | .break => "'break' outside of a loop"
  | .continue => "'continue' outside of a loop"

/-- A mistake that ends the pass, at the keyword of the stray statement. -/
structure FatalError where
  /-- Where the keyword stands. -/
  position : Position
  /-- Which statement it begins. -/
  stray : Stray
  deriving DecidableEq, Repr

/-- The wording of a fatal error, which names its position itself. -/
def FatalError.message (e : FatalError) : String := s!"{e.position.text}: {e.stray.message}"

/-- One report about the source.  Scan errors and parse errors count as errors, warnings do not. -/
inductive Diagnostic
  | scan (error : ScanError)
  | parse (position : Position) (error : ParseError)
  | warning (position : Position) (warning : Warning)
  deriving DecidableEq, Repr

namespace Diagnostic

/-- Where the report points. -/
def position : Diagnostic → Position
  | .scan error => error.position
  | .parse position _ => position
  | .warning position _ => position

/-- Errors, unlike warnings, make a compilation fail. -/
def isError : Diagnostic → Bool
  | .scan _ => true
  | .parse _ _ => true
  | .warning _ _ => false

/-- What the report says, without its position. -/
def message : Diagnostic → String
  | .scan error => error.fault.message
  | .parse _ error => error.message
  | .warning _ w => w.message

/-- The whole wording of a report: how severe it is, where it points and what it says. -/
def text (d : Diagnostic) : String :=
  let severity := if d.isError then "error" else "warning"
  s!"{severity} at {d.position.text}: {d.message}"

end Diagnostic

/-- The reports about a source, in the order they were made.  Nothing is ever taken back. -/
structure Diagnostics where
  /-- The reports. -/
  entries : Array Diagnostic := #[]
  deriving DecidableEq, Repr

namespace Diagnostics

/-- Adds a report at the end. -/
def report (ds : Diagnostics) (d : Diagnostic) : Diagnostics := ⟨ds.entries.push d⟩

/-- The reports that are errors, in the order they were made. -/
def errors (ds : Diagnostics) : Array Diagnostic := ds.entries.filter Diagnostic.isError

/-- How many reports are errors.  A source compiles exactly if there are none. -/
def errorCount (ds : Diagnostics) : Nat := ds.entries.countP Diagnostic.isError

/-- How many reports are warnings. -/
def warningCount (ds : Diagnostics) : Nat := ds.entries.countP (!·.isError)

end Diagnostics

end OnePass
