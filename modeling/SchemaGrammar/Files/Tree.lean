import SchemaGrammar.Files.Access

/-!
# Trees of files

A tree of files as a value: which directories and files there are, and which directory is the
current one. A location is the list of names on the way from the root. Every step of a path but the
last has to lead to a directory, also a step that a later step up takes back. Names and paths that
are too long lead nowhere.
-/

namespace SchemaGrammar

namespace Files

/-- A place in a tree: the names on the way from the root. -/
abbrev Location := List String

/-- A tree of files with a current directory. -/
structure Tree where
  current : Location
  directories : List Location
  files : List (Location × ByteArray)

namespace Tree

/-- The root is a directory, and so is everything that stands above a file or a directory. -/
def isDirectory (t : Tree) (l : Location) : Bool := l.isEmpty || t.directories.contains l

/-- The content of the file at a location. -/
def content? (t : Tree) (l : Location) : Option ByteArray :=
  (t.files.find? fun f => f.1 == l).map Prod.snd

/-- What stands at a location. -/
def kindAt? (t : Tree) (l : Location) : Option EntryKind :=
  if t.isDirectory l then some .directory else (t.content? l).map fun _ => .file

/-- One step from a location. -/
def step (t : Tree) (l : Location) (piece : String) : Except Problem Location :=
  match t.kindAt? l with
  | none => .error .missing
  | some .file => .error .notDirectory
  | some .directory =>
    if piece.isEmpty || piece == "." then .ok l
    else if piece == ".." then .ok l.dropLast
    else if longestName < piece.utf8ByteSize then .error .nameTooLong
    else .ok (l ++ [piece])

/-- The place where the steps of a path start. -/
def start (t : Tree) (path : String) : Location := if isAbsolute path then [] else t.current

/-- The location that the pieces of a path lead to, whether or not anything stands there. -/
def walk (t : Tree) (path : String) (pieces : List String) : Except Problem Location :=
  if path.isEmpty then .error .missing
  else if longestPath < path.utf8ByteSize then .error .nameTooLong
  else pieces.foldlM t.step (t.start path)

/-- The location that a path leads to, whether or not anything stands there. -/
def locate (t : Tree) (path : String) : Except Problem Location := t.walk path (pieces path)

/-- What a path leads to. -/
def lookup (t : Tree) (path : String) : Except Problem (Location × EntryKind) := do
  let l ← t.locate path
  match t.kindAt? l with
  | some kind => return (l, kind)
  | none => throw .missing

/-- The text of a file. -/
def read (t : Tree) (path : String) : Except Problem String := do
  match ← t.lookup path with
  | (_, .directory) => throw .isDirectory
  | (l, .file) =>
    match (t.content? l).bind String.fromUTF8? with
    | some text => return text
    | none => throw .notText

/-- What stands right below a location. -/
def entriesAt (t : Tree) (l : Location) : List (String × EntryKind) :=
  let places := t.directories.map (·, .directory) ++ t.files.map fun f => (f.1, .file)
  places.filterMap fun (place, kind) =>
    if place.dropLast == l then place.getLast?.map (·, kind) else none

/-- What a directory holds. -/
def entries (t : Tree) (path : String) : Except Problem (List (String × EntryKind)) := do
  match ← t.lookup path with
  | (_, .file) => throw .notDirectory
  | (l, .directory) => return t.entriesAt l

/-- Makes one directory. Slashes at the end of the path do not count, and a path that ends in a
dot or a step up makes no directory. -/
def makeDirectory (t : Tree) (path : String) : Except Problem Tree := do
  let pieces := ((pieces path).reverse.dropWhile String.isEmpty).reverse
  let l ← t.walk path pieces
  match pieces.getLast? with
  | none | some "." | some ".." => throw .occupied
  | some _ =>
    if (t.kindAt? l).isSome then throw .occupied
    else return { t with directories := t.directories ++ [l] }

/-- Replaces what a file holds, or makes the file. -/
def put (t : Tree) (l : Location) (content : ByteArray) : Tree :=
  { t with files := t.files.filter (fun f => f.1 != l) ++ [(l, content)] }

/-- Writes a text to a file. -/
def write (t : Tree) (path text : String) : Except Problem Tree := do
  let l ← t.locate path
  match t.kindAt? l with
  | some .directory => throw .isDirectory
  | _ => return t.put l text.toUTF8

/-- The locations above `l`, the root left out. -/
def above (l : Location) : List Location :=
  (List.range l.length).filterMap fun n => if n = 0 then none else some (l.take n)

/-- The tree that holds the given files, named from the current directory. -/
def ofFiles (current : Location) (files : List (String × ByteArray)) : Tree :=
  let files := files.map fun (path, content) => (current ++ components path, content)
  let directories := (above current ++ [current]) ++ files.flatMap fun f => above f.1
  { current, directories := directories.eraseDups, files }

/-- The files below the current directory, by their paths from there. -/
def filesBelow (t : Tree) : List (String × ByteArray) :=
  t.files.filterMap fun (l, content) =>
    if t.current.isPrefixOf l then some ("/".intercalate (l.drop t.current.length), content)
    else none

/-- Runs a change of the tree, which stays as it was if the change fails. -/
def change (f : Tree → Except Problem Tree) : StateM Tree (Except Problem Unit) := fun t =>
  match f t with
  | .ok t => (.ok (), t)
  | .error e => (.error e, t)

/-- Access to the files of a tree. -/
def access : Access (StateM Tree) where
  kind? path := do return (← get).lookup path |>.toOption.map Prod.snd
  entries path := do return (← get).entries path
  read path := do return (← get).read path
  makeDirectory path := change (·.makeDirectory path)
  write path text := change (·.write path text)

end Tree

end Files

end SchemaGrammar
