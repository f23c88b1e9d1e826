import OnePass.Program.Basic

/-!
# The listing of a program

A program as text: its name, then every method with its signature, its locals and
its numbered instructions.

## Main definitions

* `Method.listing` — the lines of one method.
* `Program.listing` — the whole text.
-/

namespace OnePass

/-- A parameter in a signature: its type, and its name if it has one. -/
def Parameter.text (p : Parameter) : String :=
  match p.name with
  | some name => s!"{p.type.spelling} {name}"
  | none => p.type.spelling

/-- A local variable in the list of locals. -/
def Variable.text (v : Variable) : String := s!"{v.type.spelling} {v.name}"

namespace Method

/-- The line of a method's return type, name and parameters. -/
def header (m : Method) : String :=
  let parameters := ", ".intercalate (m.parameters.toList.map Parameter.text)
  s!".method {m.returnType.spelling} {m.name}({parameters})\n"

/-- The line of a method's locals; a method without any has none. -/
def localsLine (m : Method) : String :=
  if m.locals.isEmpty then ""
  else
    let locals := ", ".intercalate (m.locals.toList.map Variable.text)
    s!"  .locals ({locals})\n"

/-- The line of the instruction at an offset. -/
def codeLine (offset : Nat) (i : Instruction) : String :=
  s!"  {Text.padded offset}: {i.text}\n"

/-- A method as text: its signature, its locals, and one line for each instruction. -/
def listing (m : Method) : String :=
  let lines := m.code.toList.zipIdx.map fun (i, offset) => codeLine offset i
  s!"{m.header}\x7b\n{m.localsLine}{String.join lines}\x7d\n"

end Method

/-- A program as text: its name, and its methods in the order of their declaration. -/
def Program.listing (p : Program) : String :=
  s!".program {p.name}\n" ++ String.join (p.methods.toList.map fun m => "\n" ++ m.listing)

end OnePass
