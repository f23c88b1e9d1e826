/-!
# Options

What a compilation can be told besides its source.

## Main definitions

* `Typing` — which type the name of a local variable has in an expression.
* `Options` — all options, with their defaults.
-/

namespace OnePass

/-- Which type the name of a local variable has in an expression.  The choice decides which operands
fit, and so which sources compile. -/
inductive Typing
  /-- The type it was declared with. -/
  | declared
  /-- `bool` if the innermost scope declares the name, and otherwise no known type. -/
  | legacy
  deriving DecidableEq, Repr

/-- What a compilation can be told besides its source.  Every option has a default. -/
structure Options where
  /-- The name of the program. -/
  programName : String := "MyProgram"
  /-- Whether `return`, `break` and `continue` begin a statement. -/
  stopStatements : Bool := true
  /-- Which type the name of a local variable has in an expression. -/
  typing : Typing := .declared
  deriving DecidableEq, Repr

end OnePass
