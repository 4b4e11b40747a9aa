import SchemaGrammar.Files.Name

/-!
# Access to files

The commands read directories and files, and write files. `Access m` lists what they need, in any
monad `m`; `Files.Tree` gives it for a tree of files kept as a value, and the outer layer gives it
for the files of the machine.
-/

namespace SchemaGrammar

namespace Files

/-- Why a file or directory could not be used. -/
inductive Problem where
  | missing
  | occupied
  | notDirectory
  | isDirectory
  | nameTooLong
  | notText
  | other (reason : String)
deriving Repr, DecidableEq

/-- The wording of a problem. -/
def Problem.message : Problem → String
  | .missing => "No such file or directory (os error 2)"
  | .occupied => "File exists (os error 17)"
  | .notDirectory => "Not a directory (os error 20)"
  | .isDirectory => "Is a directory (os error 21)"
  | .nameTooLong => "File name too long (os error 36)"
  | .notText => "stream did not contain valid UTF-8"
  | .other reason => reason

/-- What a path leads to. -/
inductive EntryKind where
  | file
  | directory
deriving Repr, DecidableEq

/-- What the commands need of the files around them. -/
structure Access (m : Type → Type) where
  /-- What a path leads to, if anything. -/
  kind? : String → m (Option EntryKind)
  /-- What a directory holds: names and what they stand for, in any order. -/
  entries : String → m (Except Problem (List (String × EntryKind)))
  /-- The text of a file. -/
  read : String → m (Except Problem String)
  /-- Makes one directory. -/
  makeDirectory : String → m (Except Problem Unit)
  /-- Makes a file with the given text, or replaces the text of one. -/
  write : String → String → m (Except Problem Unit)

namespace Access

variable {m : Type → Type} [Monad m]

/-- Whether a path leads to a directory. -/
def isDirectory (files : Access m) (path : String) : m Bool := do
  return (← files.kind? path) == some .directory

/-- Makes a directory that may be there already. -/
def ensureDirectory (files : Access m) (path : String) : m (Except Problem Unit) := do
  match ← files.makeDirectory path with
  | .ok () => return .ok ()
  | .error e => if ← files.isDirectory path then return .ok () else return .error e

/-- Makes a directory, and those of the directories above it that are missing. -/
def makeDirectories (files : Access m) (path : String) (above : List String) :
    m (Except Problem Unit) := do
  match ← files.ensureDirectory path with
  | .error .missing =>
    match above with
    | [] => files.ensureDirectory path
    | parent :: above =>
      match ← files.makeDirectories parent above with
      | .ok () => files.ensureDirectory path
      | .error e => return .error e
  | done => return done
termination_by structural above

end Access

end Files

end SchemaGrammar
