import OnePass.Operator
import OnePass.Text.Quoted
import OnePass.Ty

/-!
# Instructions

The code of a method is a sequence of instructions for a stack machine.  Most of
them go straight on; those are the operations.  The others are branches, whose
target is an offset in the same method, or a label as long as that label has no
offset yet.

## Main definitions

* `MethodId`, `LocalSlot`, `ParameterSlot`, `Label` — how methods, variables and
  labels are named in code.
* `Operation` — straight-line instructions.
* `Target`, `Instruction` — branch targets, and all instructions.
* `Instruction.text` — an instruction as the listing shows it.
-/

namespace OnePass

/-- Methods are numbered in the order of their declaration, the entry method first. -/
abbrev MethodId := Nat

/-- A local variable: the method that owns it, and its index there. -/
structure LocalSlot where
  method : MethodId
  index : Nat
  deriving DecidableEq, Repr

/-- A parameter: the method that owns it, and its ordinal there, counted from one. -/
structure ParameterSlot where
  method : MethodId
  ordinal : Nat
  deriving DecidableEq, Repr

/-- A label: the method that owns it, and its index there. -/
structure Label where
  method : MethodId
  index : Nat
  deriving DecidableEq, Repr

/-- The instructions after which the next one follows.  Each takes its operands from the stack and
leaves its result there. -/
inductive Operation
  | loadInt (value : Int)
  | loadBool (value : Bool)
  | loadLocal (slot : LocalSlot)
  | loadArg (ordinal : Nat)
  | storeLocal (slot : LocalSlot)
  | unary (op : UnaryOp)
  | additive (op : AdditiveOp)
  | multiplicative (op : MultiplicativeOp)
  | compare (op : ComparisonOp)
  | concat
  /-- Turns a value of type `source` into one of type `target`. -/
  | convert (target source : Ty)
  | ret
  | pop
  | print
  deriving DecidableEq, Repr

/-- Where a branch goes.  In a method that has ended, no target is pending. -/
inductive Target
  /-- To a label that has no offset yet. -/
  | pending (label : Nat)
  /-- To an offset. -/
  | offset (value : Nat)
  deriving DecidableEq, Repr

/-- One step of the machine: an operation, or a branch that may be taken only if the value on the
stack is false. -/
inductive Instruction
  | plain (operation : Operation)
  | branch (target : Target)
  | branchIfFalse (target : Target)
  deriving DecidableEq, Repr

namespace Instruction

/-- The target of a branch, be it pending or an offset.  A plain operation has none. -/
def target? : Instruction → Option Target
  | .plain _ => none
  | .branch target => some target
  | .branchIfFalse target => some target

/-- The branch with another target; a plain operation has none to change. -/
def retarget? (target : Target) : Instruction → Option Instruction
  | .plain _ => none
  | .branch _ => some (.branch target)
  | .branchIfFalse _ => some (.branchIfFalse target)

/-- Whether the instruction is a branch. -/
def isBranch (i : Instruction) : Bool := i.target?.isSome

end Instruction

/-! ### Text -/

/-- A local variable as the listing shows it: the method that owns it, and its index there. -/
def LocalSlot.text (slot : LocalSlot) : String := s!"{slot.method}:{slot.index}"

/-- An operation as the listing shows it: its mnemonic, and its argument if it has one. -/
def Operation.text : Operation → String
  | .loadInt value => s!"ldc.i4 {value}"
  | .loadBool value => if value then "ldc.i4 1" else "ldc.i4 0"
  | .loadLocal slot => s!"ldloc {slot.text}"
  | .loadArg ordinal => s!"ldarg {ordinal}"
  | .storeLocal slot => s!"stloc {slot.text}"
  | .unary op => op.mnemonic
  | .additive op => op.mnemonic
  | .multiplicative op => op.mnemonic
  | .compare op => op.mnemonic
  | .concat => "call string::concat"
  | .convert target source => s!"conv {source.spelling} -> {target.spelling}"
  | .ret => "ret"
  | .pop => "pop"
  | .print => "call print"

/-- A branch target as the listing shows it.  Offsets are padded like those in front of the
lines. -/
def Target.text : Target → String
  | .pending label => s!"L{label}"
  | .offset n => Text.padded n

/-- An instruction as the listing shows it. -/
def Instruction.text : Instruction → String
  | .plain operation => operation.text
  | .branch target => s!"br {target.text}"
  | .branchIfFalse target => s!"brfalse {target.text}"

end OnePass
