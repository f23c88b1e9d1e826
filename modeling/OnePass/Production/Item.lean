import OnePass.Production.Method

/-!
# Items and programs

A statement list is a list of items: declarations and statements.  They contain each
other, so here the productions are tied together.  Every production that can contain
itself is given a budget, which bounds how deep it nests and how often it repeats.
Each level and each round passes at least one token, so a budget not below the number
of tokens left is never used up before the input.

## Main definitions

* `declaration`, `statement`, `item` — the productions of a statement list.
* `program` — all items up to the end of the input.
* `parse` — the whole pass over a source.
-/

namespace OnePass

namespace Production

/-- An item of a statement list.  Where one begins, recovery is over. -/
def itemOf (declaration statement : Production Bool) : Production Bool := do
  modify fun s => { s with recovering := false }
  firstOf [declaration, statement]

mutual

/-- A field or a method. -/
def declaration (options : Options) : (budget : Nat) → Production Bool
  | 0 => return false
  | budget + 1 => fun s =>
    declarationForm budget
      (itemOf (fun s => declaration options budget s) fun s => statement options budget s) s

/-- A statement of any form. -/
def statement (options : Options) : (budget : Nat) → Production Bool
  | 0 => return false
  | budget + 1 => fun s =>
    firstOf (statementForms options budget (expression options (budget + 1))
      (fun s => statement options budget s)
      (itemOf (fun s => declaration options budget s) fun s => statement options budget s)) s

end

/-- A declaration or a statement. -/
def item (options : Options) (budget : Nat) : Production Bool :=
  itemOf (declaration options budget) (statement options budget)

/-- An item; what begins none is reported and skipped. -/
def itemOrSkip (item : Production Bool) : Production Unit := do
  if ← item then return else modify State.skipUnexpected

/-- Items up to the end of the input.  Each round passes a token, whether or not it finds an
item. -/
def items (item : Production Bool) : (budget : Nat) → Production Unit
  | 0 => return
  | budget + 1 => do
    if ← view State.atEnd then return
    else
      itemOrSkip item
      items item budget

/-- A whole program.  It matches if nothing was reported as an error. -/
def program (options : Options) (budget : Nat) : Production Bool := do
  modify State.advance
  let entry ← assemble (.beginProgram options.programName)
  modify fun s => { s with methods := [entry] }
  items (item options budget) budget
  view fun s => s.diagnostics.errorCount = 0 ∧ s.atEnd

end Production

/-- How a pass over a source ended, and the state it left. -/
structure Parsed where
  /-- Whether the source is free of errors, or what ended the pass early. -/
  outcome : Except Halt Bool
  /-- The state at the end. -/
  state : State

/-- The pass over a source.  The budget is the number of its tokens. -/
def parse (options : Options) (source : String) : Parsed :=
  let lexemes := lexemes source
  match Production.program options lexemes.length (.start lexemes) with
  | .ok succeeded state => ⟨.ok succeeded, state⟩
  | .error halt state => ⟨.error halt, state⟩

end OnePass
