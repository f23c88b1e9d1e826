import OnePass.Production.Item
import OnePass.Program.Listing

/-!
# Compilations

A source compiles to a program if the pass over it reports no error.  Warnings do not
stand in the way.

## Main definitions

* `Compilation` — a program with the reports about its source.
* `CompileError` — why there is none.
* `compile` — compiles a source.
* `compileLogged` — the same, with the log.
-/

namespace OnePass

/-- A program, with the reports about its source.  These can only be warnings. -/
structure Compilation where
  program : Program
  diagnostics : Diagnostics
  deriving DecidableEq, Repr

/-- Why a source gave no program.  What was reported up to then is kept, except where an invariant
is broken. -/
inductive CompileError
  /-- A broken invariant. -/
  | broken (fault : Fault)
  /-- The pass ended early. -/
  | aborted (error : FatalError) (diagnostics : Diagnostics)
  /-- Errors were reported. -/
  | failed (diagnostics : Diagnostics)
  deriving DecidableEq, Repr

namespace CompileError

/-- The wording of a broken invariant as the cause of a failure. -/
def internalMessage (cause : String) : String := s!"CompilerInternalError: {cause}"

/-- The wording of a failure, in one line and without the reports that go with it. -/
def message : CompileError → String
  | .broken fault => internalMessage fault.message
  | .aborted error _ => s!"Compilation aborted at {error.message}"
  | .failed diagnostics =>
    s!"Compilation failed with {diagnostics.errorCount} errors and "
      ++ s!"{diagnostics.warningCount} warnings"

/-- The reports that go with a failure, if the failure is the fault of the source. -/
def diagnostics? : CompileError → Option Diagnostics
  | .broken _ => none
  | .aborted _ diagnostics => some diagnostics
  | .failed diagnostics => some diagnostics

end CompileError

/-- The result of a compilation, with the log of how it came about. -/
abbrev CompileResult := Logged (Except CompileError Compilation)

/-- Ends the methods of a pass that reported no error, and gives the program. -/
def State.complete (s : State) : CompileResult :=
  match Assembler.finish ⟨s.assembler, s.log⟩ with
  | .ok program logged => ⟨.ok ⟨program, s.diagnostics⟩, logged.log⟩
  | .error fault logged => ⟨.error (.broken fault), logged.log⟩

/-- Compiles a source and keeps the log.  A pass that ends early is logged as such, and one that
does not is logged with the number of its errors and warnings. -/
def compileLogged (options : Options) (source : String) : CompileResult :=
  match parse options source with
  | ⟨.error (.broken fault), state⟩ => ⟨.error (.broken fault), state.log⟩
  | ⟨.error (.fatal error), state⟩ =>
    ⟨.error (.aborted error state.diagnostics), state.log.push (.aborted error)⟩
  | ⟨.ok succeeded, state⟩ =>
    let reports := state.diagnostics
    let state := { state with
      log := state.log.push
        (.parsed options.programName reports.errorCount reports.warningCount) }
    if succeeded then state.complete else ⟨.error (.failed reports), state.log⟩

/-- Compiles a source.  This is what the logged compilation answers, without its log. -/
def compile (options : Options) (source : String) : Except CompileError Compilation :=
  (compileLogged options source).value

end OnePass
