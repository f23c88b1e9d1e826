import OnePass.Command.Arguments
import OnePass.Compilation

/-!
# Running the command

A run reads one source, compiles it, and shows what came of it.  It needs a place to
read files from and to write them to, and is otherwise a function of its arguments.

## Main definitions

* `Files` — what a run needs of the place where files are kept.
* `Report` — the exit code and the two output streams of a run.
* `threshold` — which events a log filter lets through.
* `run` — a whole run.
-/

namespace OnePass.Command

/-- Why a file could not be written. -/
inductive WriteError
  | noSuchFile | notADirectory | isADirectory | nameTooLong
  /-- Any other reason, in the words of the system. -/
  | other (reason : String)
  deriving DecidableEq, Repr

/-- The wording of a failed write, with the number the system has for it. -/
def WriteError.message : WriteError → String
  | .noSuchFile => "No such file or directory (os error 2)"
  | .notADirectory => "Not a directory (os error 20)"
  | .isADirectory => "Is a directory (os error 21)"
  | .nameTooLong => "File name too long (os error 36)"
  | .other reason => reason

/-- What a run needs of the place where files are kept. -/
class Files (m : Type → Type) where
  /-- The contents of a file, if it can be read. -/
  read : (path : String) → m (Option ByteArray)
  /-- Writes a file, and tells if that failed. -/
  write : (path : String) → (text : String) → m (Except WriteError Unit)

/-- The exit code and the output of a run.  What is asked for goes to the first stream, and all else
to the second. -/
structure Report where
  exit : Nat
  stdout : String := ""
  stderr : String := ""
  deriving DecidableEq, Repr

/-- The level with a given name, in any case.  `off` is no level. -/
def levelNamed? (name : String) : Option (Option Level) :=
  match name.toLower with
  | "off" => some none
  | "error" => some (some .error)
  | "warn" => some (some .warn)
  | "info" => some (some .info)
  | "debug" => some (some .debug)
  | "trace" => some (some .trace)
  | _ => none

/-- The least severe level that a log filter shows.  Without a filter that names a level,
warnings and errors are shown. -/
def threshold (filter : Option String) : Option Level :=
  (filter.bind levelNamed?).getD (some .warn)

/-- Lines of text. -/
def lines (texts : List String) : String := String.join (texts.map (· ++ "\n"))

/-- The lines of a log that a filter shows, in the order of the log. -/
def logLines (filter : Option String) (log : Array Event) : String :=
  let shown := log.toList.filter fun e => e.level.shows (threshold filter)
  lines (shown.map Event.line)

/-- The lines of the reports about a source, in the order they were made. -/
def reportLines (diagnostics : Diagnostics) : String :=
  lines (diagnostics.entries.toList.map Diagnostic.text)

/-- The line of a source that gave no program. -/
def failureLine (path cause : String) : String := s!"Failed compile {path}: {cause}\n"

/-- The wording of a source that could not be read. -/
def unreadable (path : String) : String :=
  CompileError.internalMessage s!"Failed open source file {path}"

/-- Shows the program of a successful compilation, where the arguments ask for it; `notes`
is what has been said before. -/
def deliver {m : Type → Type} [Monad m] [Files m] (invocation : Invocation) (notes : String)
    (program : Program) : m Report :=
  match invocation.subcommand, invocation.output with
  | .check, _ => return { exit := 0, stderr := notes }
  | .build, none => return { exit := 0, stdout := program.listing, stderr := notes }
  | .build, some output => do
    match ← Files.write output program.listing with
    | .ok _ => return { exit := 0, stderr := notes }
    | .error e =>
      return { exit := 1, stderr := notes ++ s!"Failed write {output}: {e.message}\n" }

/-- Compiles the source of an invocation and shows what came of it: the log, then the reports, and a
last line if there is no program. -/
def compileSource {m : Type → Type} [Monad m] [Files m] (filter : Option String)
    (invocation : Invocation) (source : String) : m Report := do
  let ⟨result, log⟩ := compileLogged invocation.options source
  let log := logLines filter log
  match result with
  | .ok compilation =>
    deliver invocation (log ++ reportLines compilation.diagnostics) compilation.program
  | .error e =>
    let reports := e.diagnostics?.elim "" reportLines
    return { exit := 1, stderr := log ++ reports ++ failureLine invocation.path e.message }

/-- A whole run, for the given arguments and log filter.  A source that is no text counts
as one that cannot be read. -/
def run {m : Type → Type} [Monad m] [Files m] (arguments : List String)
    (filter : Option String) : m Report := do
  match Invocation.ofArguments arguments with
  | .error e => return { exit := 1, stderr := e.message ++ "\n" }
  | .ok invocation =>
    let contents ← Files.read invocation.path
    match contents.bind String.fromUTF8? with
    | some source => compileSource filter invocation source
    | none =>
      let cause := unreadable invocation.path
      return { exit := 1, stderr := failureLine invocation.path cause }

end OnePass.Command
