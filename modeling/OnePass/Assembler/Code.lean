import OnePass.Fault
import OnePass.Program.Basic

/-!
# Writing the code of one method

Code is only ever added at the end.  A branch to a label that has no offset yet is
written with a pending target and noted with the label; when the label gets its
offset, the noted branches get it too.

## Main definitions

* `Coding` — steps that change one method and can fail.
* `Method.add`, `Method.addLocal`, `Method.addLabel` — additions that always succeed.
* `Method.jump`, `Method.bindLabel` — branches, and the offsets of their labels.
* `Method.retarget` — sends branches to an offset.
* `Method.nameParameter` — names a parameter.
* `Method.close` — checks that every label has an offset, and ends the code in a return.
-/

namespace OnePass

/-- A step that changes one method, and can fail. -/
abbrev Coding := EStateM Fault Method

namespace Method

/-- Adds an instruction at the end.  Instructions are never moved, so its offset is for good. -/
def add (i : Instruction) : Coding Unit := fun m =>
  .ok () { m with code := m.code.push i }

/-- Adds a local variable and answers its index. -/
def addLocal (v : Variable) : Coding Nat := fun m =>
  let index := m.locals.size
  .ok index { m with locals := m.locals.push v }

/-- Adds a label without an offset and answers its index. -/
def addLabel : Coding Nat := fun m =>
  let index := m.labels.size
  .ok index { m with labels := m.labels.push (.waiting #[]) }

/-- Adds a branch to a label.  If the label has its offset, the branch gets it right away, and
otherwise it is noted with the label. -/
def jump (branch : Target → Instruction) (label : Nat) : Coding Unit := fun m =>
  match m.labels[label]? with
  | none => .error .unknownLabel m
  | some (.bound offset) => .ok () { m with code := m.code.push (branch (.offset offset)) }
  | some (.waiting branches) =>
    .ok () { m with
      labels := m.labels.setIfInBounds label (.waiting (branches.push m.code.size))
      code := m.code.push (branch (.pending label)) }

/-- Sends the branches at the given places to `offset`, one after the other.  Where there is
no branch it stops, and those before have been sent there already. -/
def retarget (offset : Nat) : List Nat → Coding Unit
  | [] => fun m => .ok () m
  | i :: rest => fun m =>
    match m.code[i]?.bind (Instruction.retarget? (.offset offset)) with
    | some instruction =>
      retarget offset rest { m with code := m.code.setIfInBounds i instruction }
    | none => .error .notABranch m

/-- Gives a label the offset of the next instruction, and answers that offset.  The branches that
wait for the label are sent there. -/
def bindLabel (label : Nat) : Coding Nat := fun m =>
  let offset := m.code.size
  match m.labels[label]? with
  | none => .error .unknownLabel m
  | some (.bound previous) => .error (.boundTwice label previous) m
  | some (.waiting branches) =>
    -- The label has its offset before any of its branches is sent there.
    let m := { m with labels := m.labels.setIfInBounds label (.bound offset) }
    match retarget offset branches.toList m with
    | .ok _ m => .ok offset m
    | .error f m => .error f m

/-- Names the parameter with the given ordinal, which has to be of the given type. -/
def nameParameter (name : String) (ordinal : Nat) (type : Ty) : Coding Unit := fun m =>
  match ordinal with
  | 0 => .error .reservedOrdinal m
  | index + 1 =>
    if m.parameters[index]?.map (·.type) = some type then
      .ok () { m with parameters := m.parameters.setIfInBounds index ⟨type, some name⟩ }
    else .error (.parameterMismatch name ordinal m.name) m

/-- What is known of a method once it has ended. -/
structure Closed where
  /-- The name of the method. -/
  name : String
  /-- The number of its instructions. -/
  size : Nat
  deriving DecidableEq, Repr

/-- Ends the code of a method: every label has an offset, and the last instruction returns. A return
is added only if there is none. -/
def close : Coding Closed := fun m =>
  match m.labels.findIdx? (·.offset?.isNone) with
  | some label => .error (.unboundLabel label m.name) m
  | none =>
    let m := if m.code.back? = some (.plain .ret) then m
      else { m with code := m.code.push (.plain .ret) }
    .ok ⟨m.name, m.code.size⟩ m

end Method

end OnePass
