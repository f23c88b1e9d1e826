import OnePass.Options

/-!
# Command line arguments

The first argument names a subcommand; a `--` may stand before it.  After it come one
path and options, in any order; after a `--` among these every argument is a path.
Arguments are read from left to right, and the first one that makes no sense is the one
reported.

## Main definitions

* `Setting` — the options of the command line.
* `ArgumentError` — what can be wrong with the arguments.
* `Argument`, `Argument.ofText` — the forms of a single argument.
* `Invocation`, `Invocation.ofArguments` — what the arguments ask for.
-/

namespace OnePass.Command

/-- What the program is asked to do with a source. -/
inductive Subcommand
  /-- Compile it and show the listing. -/
  | build
  /-- Only report on it. -/
  | check
  deriving DecidableEq, Repr

/-- The options of the command line.  Not every subcommand has all of them. -/
inductive Setting
  | output | name | noStopStatements | legacyIdentifiers
  deriving DecidableEq, Repr

namespace Setting

/-- The long name of an option. -/
def long : Setting → String
  | .output => "output"
  | .name => "name"
  | .noStopStatements => "no-stop-statements"
  | .legacyIdentifiers => "legacy-identifiers"

/-- The one-letter name of an option. -/
def short? : Setting → Option Char
  | .output => some 'o'
  | _ => none

/-- Whether an option is followed by a value. -/
def takesValue : Setting → Bool
  | .output => true
  | .name => true
  | .noStopStatements => false
  | .legacyIdentifiers => false

/-- How messages show an option. -/
def usage : Setting → String
  | .output => "-o, --output <OUTPUT>"
  | .name => "--name <NAME>"
  | .noStopStatements => "--no-stop-statements"
  | .legacyIdentifiers => "--legacy-identifiers"

/-- The options of a subcommand. -/
def ofSubcommand : Subcommand → List Setting
  | .build => [.output, .name, .noStopStatements, .legacyIdentifiers]
  | .check => [.noStopStatements, .legacyIdentifiers]

end Setting

/-- What can be wrong with the arguments.  An error carries what its message shows. -/
inductive ArgumentError
  | missingSubcommand
  | unknownSubcommand (word : String)
  | missingPath
  | unexpectedArgument (argument : String)
  | repeated (setting : Setting)
  | missingValue (setting : Setting)
  | unexpectedValue (value : String) (setting : Setting)
  deriving DecidableEq, Repr

/-- The wording of a mistake in the arguments. -/
def ArgumentError.message : ArgumentError → String
  | .missingSubcommand => "the subcommand is required but not provided"
  | .unknownSubcommand word => s!"unrecognized subcommand '{word}'"
  | .missingPath => "the argument '<PATH>' is required but not provided"
  | .unexpectedArgument argument => s!"unexpected argument '{argument}'"
  | .repeated setting => s!"the argument '{setting.usage}' cannot be used multiple times"
  | .missingValue setting =>
    s!"a value is required for '{setting.usage}' but none was supplied"
  | .unexpectedValue value setting => s!"unexpected value '{value}' for '{setting.usage}'"

/-! ### Single arguments -/

/-- The forms of a single argument, told from its own text alone. -/
inductive Argument
  /-- `--`, after which there are only paths. -/
  | separator
  /-- `--name`, or `--name=value`. -/
  | long (name : String) (value : Option String)
  /-- `-c`, or `-c` with more characters after it. -/
  | short (letter : Char) (rest : List Char)
  /-- Anything else. -/
  | plain (text : String)
  deriving DecidableEq, Repr

namespace Argument

/-- The form of an argument. -/
def ofText (text : String) : Argument :=
  match text.toList with
  | ['-', '-'] => .separator
  | '-' :: '-' :: cs =>
    let name := String.ofList (cs.takeWhile (· != '='))
    match cs.dropWhile (· != '=') with
    | _ :: value => .long name (some (String.ofList value))
    | [] => .long name none
  | '-' :: c :: cs => .short c cs
  | _ => .plain text

/-- The tag of an argument that names an option: the name without its dashes.  A name of
one letter after two dashes keeps them, so that it is not taken for a short option. -/
def tag : Argument → String
  | .separator => "--"
  | .long name _ => if name.utf8ByteSize = 1 then "--" ++ name else name
  | .short letter _ => String.ofList [letter]
  | .plain text => text

/-- How messages show the tag of an option: with one dash if there is at most one
character, as it is if it has two dashes already, and with two dashes otherwise. -/
def dashed (tag : String) : String :=
  match tag.toList with
  | [] => "-"
  | [c] => String.ofList ['-', c]
  | '-' :: '-' :: _ => tag
  | _ => "--" ++ tag

/-- How messages show an argument that names an option, without its value. -/
def shown (a : Argument) : String := dashed a.tag

/-- The option an argument names, of those given.  Names have to be written out in full. -/
def setting? (settings : List Setting) : Argument → Option Setting
  | .long name _ => settings.find? (·.long == name)
  | .short letter _ => settings.find? (·.short? == some letter)
  | _ => none

/-- The value that is part of an argument: after an equal sign, or right after the
letter. -/
def value? : Argument → Option String
  | .long _ value => value
  | .short _ [] => none
  | .short _ ('=' :: rest) => some (String.ofList rest)
  | .short _ rest => some (String.ofList rest)
  | _ => none

/-- Whether an argument can be the value of the option before it. -/
def isPlain : Argument → Bool
  | .plain _ => true
  | _ => false

end Argument

/-! ### All arguments -/

/-- What a subcommand has been given so far.  Nothing is given twice. -/
structure Given where
  path : Option String := none
  output : Option String := none
  name : Option String := none
  noStopStatements : Bool := false
  legacyIdentifiers : Bool := false
  deriving DecidableEq, Repr

namespace Given

/-- Whether an option has been given. -/
def has (g : Given) : Setting → Bool
  | .output => g.output.isSome
  | .name => g.name.isSome
  | .noStopStatements => g.noStopStatements
  | .legacyIdentifiers => g.legacyIdentifiers

/-- Gives an option, with its value if it takes one.  It can be given once. -/
def set (g : Given) (setting : Setting) (value : String) : Except ArgumentError Given :=
  if g.has setting then .error (.repeated setting)
  else
    match setting with
    | .output => .ok { g with output := some value }
    | .name => .ok { g with name := some value }
    | .noStopStatements => .ok { g with noStopStatements := true }
    | .legacyIdentifiers => .ok { g with legacyIdentifiers := true }

/-- Gives the path.  There is only one. -/
def setPath (g : Given) (path : String) : Except ArgumentError Given :=
  if g.path.isSome then .error (.unexpectedArgument path) else .ok { g with path := some path }

/-- Reads arguments of which every one is a path. -/
def readPaths (g : Given) : List String → Except ArgumentError Given
  | [] => .ok g
  | path :: rest => do
    let g ← g.setPath path
    readPaths g rest

/-- Reads the arguments of a subcommand, of which `settings` are the options it has. -/
def readAll (settings : List Setting) (g : Given) : List String → Except ArgumentError Given
  | [] => .ok g
  | text :: rest => do
    let argument := Argument.ofText text
    match argument with
    | .separator => readPaths g rest
    | .plain path =>
      let g ← g.setPath path
      readAll settings g rest
    | argument =>
      match argument.setting? settings with
      | none => throw (.unexpectedArgument argument.shown)
      | some setting =>
        match setting.takesValue, argument.value? with
        | true, some value =>
          let g ← g.set setting value
          readAll settings g rest
        | true, none =>
          match rest with
          | value :: rest =>
            if (Argument.ofText value).isPlain then
              let g ← g.set setting value
              readAll settings g rest
            else throw (.missingValue setting)
          | [] => throw (.missingValue setting)
        | false, some value => throw (.unexpectedValue value setting)
        | false, none =>
          let g ← g.set setting ""
          readAll settings g rest

end Given

/-- What the arguments ask for, once they have all been read. -/
structure Invocation where
  subcommand : Subcommand
  /-- The file with the source. -/
  path : String
  /-- The file for the listing; without one it is printed. -/
  output : Option String
  options : Options
  deriving DecidableEq, Repr

/-- The subcommand with a given name. -/
def Subcommand.ofWord? : String → Option Subcommand
  | "build" => some .build
  | "check" => some .check
  | _ => none

/-- The options of a compilation that the arguments ask for. -/
def Given.options (g : Given) : Options :=
  let defaults : Options := {}
  { programName := g.name.getD defaults.programName
    stopStatements := !g.noStopStatements
    typing := if g.legacyIdentifiers then .legacy else .declared }

/-- Reads the arguments after a subcommand. -/
def Invocation.ofSubcommand (subcommand : Subcommand) (arguments : List String) :
    Except ArgumentError Invocation := do
  let given ← Given.readAll (Setting.ofSubcommand subcommand) {} arguments
  match given.path with
  | some path => return ⟨subcommand, path, given.output, given.options⟩
  | none => throw .missingPath

/-- Reads arguments of which the first one, whatever it looks like, is a subcommand. -/
def Invocation.ofWords : List String → Except ArgumentError Invocation
  | [] => .error .missingSubcommand
  | word :: rest =>
    match Subcommand.ofWord? word with
    | some subcommand => ofSubcommand subcommand rest
    | none => .error (.unknownSubcommand word)

/-- Reads all arguments. -/
def Invocation.ofArguments : List String → Except ArgumentError Invocation
  | [] => .error .missingSubcommand
  | text :: rest =>
    match Argument.ofText text with
    | .plain _ => ofWords (text :: rest)
    | .separator => ofWords rest
    | argument => .error (.unexpectedArgument argument.shown)

end OnePass.Command
