import OnePass.Command.Run

/-!
# A folder of files

A single folder without subfolders, as a place for files.  It stands below other
folders, up to the root, of which nothing else is known.  A path names a file of the
folder if, apart from steps that stay in the folder, it is just the file's name.

## Main definitions

* `Folder` — files by name.
* `Folder.Place`, `Folder.place` — where a path leads.
* `Folder.read?`, `Folder.write` — the contents of a file, and a new file.
* `Folder.run` — a run of the command in a folder.
-/

namespace OnePass.Command

/-- Files by name; the first one with a name counts.  A file outside the folder has the
steps that lead there before its name. -/
structure Folder where
  files : List (String × ByteArray) := []

namespace Folder

/-- Where a path leads. -/
inductive Place
  /-- To the file with this name, whether it exists or not. -/
  | file (name : String)
  /-- To a folder. -/
  | folder
  /-- Through a folder that does not exist. -/
  | nowhere
  /-- Through a file as if it were a folder. -/
  | throughFile
  /-- To a name, or by a path, longer than names and paths can be. -/
  | tooLong
  deriving DecidableEq, Repr

/-- The contents of the file with a name. -/
def find? (f : Folder) (name : String) : Option ByteArray := f.files.lookup name

/-- The most bytes that a name can have. -/
def maxName : Nat := 255

/-- The most bytes that a path can have. -/
def maxPath : Nat := 4095

/-- The steps to the folder above the one that `steps` lead to.  The root is above
itself. -/
def above (steps : String) : String := if steps = "/" then "/" else "../" ++ steps

/-- Where the parts of a path lead, one after the other, from the folder that `steps` lead
to.  A part that is empty or a single dot stays where it is.  A path that ends in a slash
means a folder. -/
def follow (f : Folder) (steps : String) : List String → Place
  | [] => .folder
  | [name] =>
    if name = "" ∨ name = "." ∨ name = ".." then .folder
    else if maxName < name.utf8ByteSize then .tooLong
    else .file (steps ++ name)
  | part :: rest =>
    if part = "" ∨ part = "." then f.follow steps rest
    else if part = ".." then f.follow (above steps) rest
    else if rest.all (· = "") then .folder
    else if maxName < part.utf8ByteSize then .tooLong
    else if (f.find? (steps ++ part)).isSome then .throughFile
    else .nowhere

/-- Where a path leads.  One that begins with a slash starts at the root. -/
def place (f : Folder) (path : String) : Place :=
  if path = "" then .nowhere
  else if maxPath < path.utf8ByteSize then .tooLong
  else f.follow (if path.startsWith "/" then "/" else "") (path.splitOn "/")

/-- The contents of the file a path leads to. -/
def read? (f : Folder) (path : String) : Option ByteArray :=
  match f.place path with
  | .file name => f.find? name
  | _ => none

/-- Writes a file, in place of one with the same name.  Where the path leads to no file, the folder
stays as it is. -/
def write (path text : String) (f : Folder) : Except WriteError Unit × Folder :=
  match f.place path with
  | .file name =>
    (.ok (), ⟨(name, text.toUTF8) :: f.files.filter (·.1 ≠ name)⟩)
  | .folder => (.error .isADirectory, f)
  | .nowhere => (.error .noSuchFile, f)
  | .throughFile => (.error .notADirectory, f)
  | .tooLong => (.error .nameTooLong, f)

/-- A folder is a place for files. -/
instance : Files (StateM Folder) where
  read path := return (← get).read? path
  write path text := modifyGet (write path text)

/-- A run of the command in a folder. -/
def run (arguments : List String) (filter : Option String) (f : Folder) : Report × Folder :=
  (Command.run arguments filter : StateM Folder Report) f

end Folder

end OnePass.Command
