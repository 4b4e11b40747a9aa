import SchemaGrammar.Command.Run

/-!
# The command line

Runs `Command.runArguments` against the files of the machine.
-/

namespace SchemaGrammar

namespace Command

open Files (Access EntryKind Problem)

/-- The code of the machine for names that are too long. -/
def tooLongCode : UInt32 := 36

/-- The problem that an error of the machine stands for. Directories are told apart from files
before anything is read or written, so the wrong kind of entry can only be a file on the way. Some
operations of the machine report the negative of a code. -/
def problemOf : IO.Error → Problem
  | .noFileOrDirectory .. => .missing
  | .alreadyExists .. => .occupied
  | .inappropriateType .. => .notDirectory
  | e@(.invalidArgument _ code _) =>
    if code == tooLongCode || code == 0 - tooLongCode then .nameTooLong else .other (toString e)
  | e => .other (toString e)

/-- An action of the machine with its error as a value. -/
def attempt {α : Type} (action : IO α) : IO (Except Problem α) := do
  try return .ok (← action) catch e => return .error (problemOf e)

/-- What a path leads to. -/
def machineKind? (path : String) : IO (Option EntryKind) := do
  if path.isEmpty then return none
  match ← attempt (do ((← IO.currentDir) / path).metadata) with
  | .ok found => return some (if found.type == .dir then .directory else .file)
  | .error _ => return none

/-- Access to the files of the machine. -/
def machineFiles : Access IO where
  kind? := machineKind?
  entries path := do
    attempt do
      (← ((← IO.currentDir) / path).readDir).toList.mapM fun entry => do
        let kind ← machineKind? (Files.join path entry.fileName)
        return (entry.fileName, kind.getD .file)
  read path := do
    if path.isEmpty then return .error .missing
    if (← machineKind? path) == some .directory then return .error .isDirectory
    match ← attempt (IO.FS.readBinFile path) with
    | .error e => return .error e
    | .ok bytes =>
      match String.fromUTF8? bytes with
      | some text => return .ok text
      | none => return .error .notText
  makeDirectory path := attempt (IO.FS.createDir path)
  write path text := do
    if (← machineKind? path) == some .directory then return .error .isDirectory
    attempt (IO.FS.writeFile path text)

/-- Whether to print in colour: as the environment demands, or else if a terminal shows the output
and colours are not turned off. -/
def wantsColor (force off usual : Option String) (terminal : Bool) : Bool :=
  if force.any (· != "0") then true
  else if off.isSome then false
  else usual.all (· != "0") && terminal

/-- Runs a command line against the files of the machine; the result is the exit code. -/
def execute (arguments : List String) : IO UInt32 := do
  let output ← IO.getStdout
  let errors ← IO.getStderr
  let force ← IO.getEnv "CLICOLOR_FORCE"
  let off ← IO.getEnv "NO_COLOR"
  let usual ← IO.getEnv "CLICOLOR"
  let colored := wantsColor force off usual (← output.isTty)
  let outcome ← runArguments { files := machineFiles, colored } arguments
  output.putStr outcome.printed.output
  errors.putStr outcome.printed.errors
  return outcome.exit.toUInt32

end Command

end SchemaGrammar

/-- The entry point. -/
def main (arguments : List String) : IO UInt32 :=
  SchemaGrammar.Command.execute arguments
