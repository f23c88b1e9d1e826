import OnePass.Instruction

/-!
# Programs

A program is a name and a list of methods; the first one, `main`, holds the
statements that stand outside every method.

## Main definitions

* `Variable`, `Parameter` — what a method declares.
* `LabelState` — what is known of a label: its offset, or the branches that wait
  for it.
* `Method`, `Program` — code with its declarations.
-/

namespace OnePass

/-- A named variable, as a method declares it. -/
structure Variable where
  name : String
  type : Ty
  deriving DecidableEq, Repr

/-- A parameter of a method.  Its type is fixed with the method, its name comes later. -/
structure Parameter where
  type : Ty
  name : Option String := none
  deriving DecidableEq, Repr

/-- What is known of a label: either its offset, or where the branches are that wait for it. -/
inductive LabelState
  /-- The label stands at this offset. -/
  | bound (offset : Nat)
  /-- The label has no offset yet, and these offsets hold the branches to it. -/
  | waiting (branches : Array Nat)
  deriving DecidableEq, Repr

/-- The offset of a label, if it has one. -/
def LabelState.offset? : LabelState → Option Nat
  | .bound offset => some offset
  | .waiting _ => none

/-- A method and its code.  The labels are only used while the code is written. -/
structure Method where
  name : String
  returnType : Ty
  /-- The parameters; the one with ordinal `k + 1` has index `k`. -/
  parameters : Array Parameter := #[]
  locals : Array Variable := #[]
  code : Array Instruction := #[]
  labels : Array LabelState := #[]
  deriving DecidableEq, Repr

/-- A program and its methods, in the order of their declaration. -/
structure Program where
  name : String
  methods : Array Method := #[]
  deriving DecidableEq, Repr

/-- The largest number of parameters a method can have, which is the largest unsigned number of 16
bits. -/
def Method.maxParameters : Nat := 65535

namespace Program

/-- The method that holds the statements outside every method. -/
def entry? (p : Program) : Option Method := p.methods[0]?

/-- The first method with a given name. -/
def find? (p : Program) (name : String) : Option Method := p.methods.find? (·.name == name)

end Program

end OnePass
