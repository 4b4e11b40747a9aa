/-!
# Names of files

A file is named by a path: components separated by slashes, read from the current directory unless
the path starts with a slash. Empty components and inner components that are a single dot name
nothing of their own.
-/

namespace SchemaGrammar

namespace Files

/-- The pieces between the slashes of a path, empty ones included. -/
def pieces (path : String) : List String :=
  (path.toList.splitOn '/').map String.ofList

/-- No name in a directory has more bytes. -/
def longestName : Nat := 255

/-- No path that leads anywhere has more bytes. -/
def longestPath : Nat := 4095

/-- Whether a path starts at the root. -/
def isAbsolute (path : String) : Bool := path.toList.head? == some '/'

/-- The path of `name` inside the directory `directory`. -/
def join (directory name : String) : String :=
  if directory.isEmpty || directory.toList.getLast? == some '/' then directory ++ name
  else directory ++ "/" ++ name

/-- The components of a path. A leading dot is one; dots further in and empty pieces are not. -/
def components (path : String) : List String :=
  match pieces path with
  | [] => []
  | first :: rest =>
    (if first.isEmpty then [] else [first]) ++ rest.filter fun p => !(p.isEmpty || p == ".")

/-- The name of the file that a path leads to, if it does not end at the root or in a step up. -/
def fileName? (path : String) : Option String :=
  match (components path).getLast? with
  | none | some "." | some ".." => none
  | some name => some name

/-- A file name without its extension, which is what follows the last dot. A dot at the start
begins no extension. -/
def withoutExtension (name : String) : String :=
  let beforeDot := (name.toList.reverse.dropWhile (· != '.')).drop 1
  if beforeDot.isEmpty then name else String.ofList beforeDot.reverse

/-- The directories above a path, the nearest first. -/
def parents (path : String) : List String :=
  let start := if isAbsolute path then "/" else ""
  let components := components path
  (List.range components.length).reverse.filterMap fun n =>
    if n = 0 then none else some (start ++ "/".intercalate (components.take n))

example : withoutExtension "person.schema.json" = "person.schema" := by decide +kernel

example : withoutExtension ".hidden" = ".hidden" := by decide +kernel

example : parents "a//b/./c/" = ["a/b", "a"] := by decide +kernel

end Files

end SchemaGrammar
