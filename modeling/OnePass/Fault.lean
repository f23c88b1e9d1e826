import OnePass.Entity

/-!
# Broken invariants

What the assembler and the scopes refuse.  None of it is a mistake in a source: it
tells that a request makes no sense in the state it meets.  The one exception is
`tooManyParameters`, which a source can cause.

## Main definitions

* `Fault` — the invariants that can be found broken.
* `Fault.message` — their wording.
-/

namespace OnePass

/-- An invariant found broken, with what its message names. -/
inductive Fault
  | noProgram
  | noOpenMethod
  | unknownMethod
  | unknownLabel
  /-- A label of another method than the innermost open one. -/
  | foreignLabel (label : Label)
  /-- A parameter of another method than the innermost open one. -/
  | foreignParameter (slot : ParameterSlot)
  /-- Ordinals count from one. -/
  | reservedOrdinal
  /-- The method has no parameter with this ordinal and the given type. -/
  | parameterMismatch (name : String) (ordinal : Nat) (method : String)
  /-- A method ends while a label has no offset. -/
  | unboundLabel (label : Nat) (method : String)
  | boundTwice (label : Nat) (offset : Nat)
  /-- An instruction that waits for a label is no branch. -/
  | notABranch
  /-- The scope of the program is never left. -/
  | outermostScope
  | unknownEntity (id : EntityId)
  | notAMethod (entity : Entity)
  | notAParameter (entity : Entity)
  | tooManyParameters
  deriving DecidableEq, Repr

/-- The wording of a broken invariant.  Entities, labels and slots are shown with all that is known
of them. -/
def Fault.message : Fault → String
  | .noProgram => "No program was started"
  | .noOpenMethod => "No method is open"
  | .unknownMethod => "Unknown method handle"
  | .unknownLabel => "Unknown label"
  | .foreignLabel label =>
    s!"Label Label \x7b method: MethodHandle({label.method}), index: {label.index} \x7d "
      ++ "belongs to another method"
  | .foreignParameter slot => s!"Parameter {slot.detail} belongs to another method"
  | .reservedOrdinal => "Parameter ordinal 0 is reserved"
  | .parameterMismatch name ordinal method =>
    s!"Parameter {name} #{ordinal} doesn't match method {method}"
  | .unboundLabel label method => s!"Label L{label} in method {method} was never bound"
  | .boundTwice label offset => s!"Label L{label} already bound at {Text.padded offset}"
  | .notABranch => "Fixup is not a branch"
  | .outermostScope => "Attempted to exit the program scope"
  | .unknownEntity id => s!"Unknown symbol {id}"
  | .notAMethod entity => s!"Symbol {entity.detail} is not a method"
  | .notAParameter entity => s!"Symbol {entity.detail} is not a parameter"
  | .tooManyParameters => "Too many parameters"

end OnePass
