import SchemaGrammar.Files.Access
import SchemaGrammar.Files.Glob

/-!
# Finding files

The paths that fit a pattern, in alphabetical order within each directory. A component without
wildcards is looked up and not searched for. Under `**`, what is found for a directory itself comes
before what is found inside it. A directory that cannot be read ends the search.
-/

namespace SchemaGrammar

namespace Files

namespace Glob

variable {m : Type → Type} [Monad m]

/-- The two names that every directory has for itself and for the one above it. They fit only a
pattern that starts with a dot. -/
def dotNames (tokens : List Token) : List String :=
  if tokens.head? == some (.char '.') then
    ["..", "."].filter fun name => fits tokens name.toList
  else []

/-- The path of an entry; those of the current directory are named without it. -/
def entryPath (directory name : String) : String :=
  if components directory == ["."] then name else join directory name

/-- A directory that could not be read, and why. -/
structure ListingError where
  directory : String
  problem : Problem
deriving Repr, DecidableEq

/-- What went wrong with a directory. -/
def ListingError.message (e : ListingError) : String :=
  "attempting to read `" ++ e.directory ++ "` resulted in an error: " ++ e.problem.message

/-- A search, which ends at the first directory that cannot be read. -/
abbrev SearchM (m : Type → Type) := ExceptT ListingError m

/-- A path that was found, and whether it is known to lead to a directory. -/
structure Found where
  path : String
  isDirectory : Bool
deriving Repr, DecidableEq

/-- The path that was found by its name alone. -/
def found (files : Access m) (path : String) : SearchM m Found := do
  return { path, isDirectory := ← files.isDirectory path }

/-- The entries of a directory in alphabetical order. -/
def sortedEntries (files : Access m) (directory : String) :
    SearchM m (List (String × EntryKind)) := do
  match ← (files.entries directory : m _) with
  | .ok entries => return entries.mergeSort fun a b => decide (a.1 ≤ b.1)
  | .error problem => throw { directory, problem }

/-- An entry of a directory, by its path. -/
def entryFound (directory : String) (entry : String × EntryKind) : Found :=
  { path := entryPath directory entry.1, isDirectory := entry.2 == .directory }

/-- The paths that fit the components, from `here` on. `fuel` bounds the number of steps into
directories and along the components. -/
def pathsFrom (files : Access m) (directoriesOnly : Bool) :
    Nat → List Component → Found → SearchM m (List String)
  | 0, _, _ => return []
  | _, [], here => return if directoriesOnly && !here.isDirectory then [] else [here.path]
  | fuel + 1, .name text :: rest, here => do
    let next := entryPath here.path text
    let isThere ←
      if text == "." || text == ".." then pure here.isDirectory
      else pure (← (files.kind? next : m _)).isSome
    if isThere then pathsFrom files directoriesOnly fuel rest (← found files next)
    else return []
  | fuel + 1, .wild tokens :: rest, here => do
    if !here.isDirectory then return []
    let entries ← sortedEntries files here.path
    let fitting := entries.filter fun entry => fits tokens entry.1.toList
    let dots ← (dotNames tokens).mapM fun name => found files (join here.path name)
    let nexts := dots ++ fitting.map (entryFound here.path)
    return (← nexts.mapM (pathsFrom files directoriesOnly fuel rest)).flatten
  | fuel + 1, .directories :: rest, here => do
    if !here.isDirectory then return []
    let rest := rest.dropWhile (· == .directories)
    let below ← (← sortedEntries files here.path).mapM fun entry => do
      let next := entryFound here.path entry
      let itself ←
        match rest with
        | [] => pure (if next.isDirectory then [next.path] else [])
        | component :: rest =>
          if component.accepts entry.1 then pathsFrom files directoriesOnly fuel rest next
          else pure []
      return itself ++ (← pathsFrom files directoriesOnly fuel (.directories :: rest) next)
    return below.flatten

/-- The paths that fit a pattern. A directory whose path is too long cannot be read, so no search
goes deeper than paths are long. -/
def Pattern.paths (files : Access m) (p : Pattern) : SearchM m (List String) := do
  let start ← found files (if p.isAbsolute then "/" else ".")
  pathsFrom files p.directoriesOnly (longestPath + p.components.length + 1) p.components start

end Glob

end Files

end SchemaGrammar
