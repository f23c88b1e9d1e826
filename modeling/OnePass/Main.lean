import OnePass.Command.Run

/-!
# The program

Runs the command with the arguments of the process, on the files of the system.  The
log filter is taken from the environment.
-/

namespace OnePass

/-- Why the system refused to write a file, as far as messages tell the reasons apart. -/
def writeErrorOf : IO.Error → Command.WriteError
  | .noFileOrDirectory _ _ _ => .noSuchFile
  | .inappropriateType _ code _ => if code = 20 then .notADirectory else .isADirectory
  | .invalidArgument _ 36 _ => .nameTooLong
  | e => .other (toString e)

/-- The files of the system. -/
instance : Command.Files IO where
  read path := do
    try return some (← IO.FS.readBinFile path)
    catch _ => return none
  write path text := do
    try
      IO.FS.writeFile path text
      return .ok ()
    catch e => return .error (writeErrorOf e)

end OnePass

/-- Runs the command on the files of the system, shows its report, and answers its exit code. -/
def main (arguments : List String) : IO UInt32 := do
  let filter ← IO.getEnv "BUG_LOG"
  let report ← OnePass.Command.run (m := IO) arguments filter
  IO.eprint report.stderr
  IO.print report.stdout
  return report.exit.toUInt32
