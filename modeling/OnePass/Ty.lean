import OnePass.Keyword
import OnePass.Symbol

/-!
# Types

The value types of the language and the rules that expressions, assignments and
conditions obey.  `unknown` is the type of an expression that has already been
reported as wrong; it passes every check, so that one mistake is reported once.

## Main definitions

* `Ty` — the types.
* `Ty.accepts target source` — whether a `source` may be assigned to a `target`.
* `Ty.comparable` — whether two operands may be compared.
* `Ty.binary?`, `Ty.unary?` — the result type of an operator, if it applies.
* `Ty.predefined` — the type names every program starts with.
-/

namespace OnePass

/-- The types of values.  A program cannot name `unknown`; it only stands for what is already known
to be wrong. -/
inductive Ty
  | int | bool | char | string
  /-- A reference, which can hold a value of any other type. -/
  | ref
  /-- The type of what leaves no value behind. -/
  | void
  /-- The type of an expression already reported as wrong. -/
  | unknown
  deriving DecidableEq, Repr

namespace Ty

/-- The name of a type in programs and messages. -/
def spelling : Ty → String
  | .int => "int"
  | .bool => "bool"
  | .char => "char"
  | .string => "string"
  | .ref => "ref"
  | .void => "void"
  | .unknown => "<unknown>"

/-- The type a keyword names; `pchar` is another name for `string`. -/
def ofKeyword? : Keyword → Option Ty
  | .int => some .int
  | .bool => some .bool
  | .char => some .char
  | .string => some .string
  | .pchar => some .string
  | .ref => some .ref
  | .void => some .void
  | _ => none

/-- The type names that every program starts with, in the order they are declared. -/
def predefined : List (String × Ty) :=
  [("int", .int), ("bool", .bool), ("char", .char), ("string", .string),
    ("pchar", .string), ("ref", .ref), ("void", .void)]

/-- Whether a value of type `source` may be assigned to a variable of type `target`:
`void` takes part in no assignment, a reference holds anything else. -/
def accepts (target source : Ty) : Bool :=
  if target = .unknown ∨ source = .unknown then true
  else if target = .void ∨ source = .void then false
  else target = .ref ∨ target = source

/-- Whether values of the two types may be compared: they are equal and not `void`. -/
def comparable (left right : Ty) : Bool :=
  if left = .unknown ∨ right = .unknown then true
  else left ≠ .void ∧ left = right

/-- The type of `left operator right` for an additive or multiplicative operator, or nothing if the
operands do not fit. -/
def binary? (operator : Symbol) (left right : Ty) : Option Ty :=
  if left = .unknown ∨ right = .unknown then some .unknown
  else match operator, left, right with
    | .plus, .int, .int => some .int
    | .plus, .string, .string => some .string
    | .minus, .int, .int => some .int
    | .star, .int, .int => some .int
    | .slash, .int, .int => some .int
    | .percent, .int, .int => some .int
    | .bar, .int, .int => some .int
    | .bar, .bool, .bool => some .bool
    | .caret, .int, .int => some .int
    | .caret, .bool, .bool => some .bool
    | .amp, .int, .int => some .int
    | .amp, .bool, .bool => some .bool
    | .barBar, .bool, .bool => some .bool
    | .ampAmp, .bool, .bool => some .bool
    | _, _, _ => none

/-- The type of a signed operand.  Only a number takes a sign. -/
def unary? : Ty → Option Ty
  | .int => some .int
  | .unknown => some .unknown
  | _ => none

end Ty

end OnePass
