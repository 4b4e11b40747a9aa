import SchemaGrammar.Command.Arguments
import SchemaGrammar.Command.Error
import SchemaGrammar.Compiler
import SchemaGrammar.Files.Search
import SchemaGrammar.Schema.OfText
import SchemaGrammar.Text.Lines

/-!
# Running commands

A command runs against any `Files.Access`, so the same definitions serve the files of a machine and
a tree of files kept as a value. What was printed before a failure stays printed.

## Main definitions

* `Session`: commands in progress, which print and may fail.
* `Invocation.run`: a command from start to end.
* `runArguments`: a command line from start to end.
-/

namespace SchemaGrammar

namespace Command

/-- What a command printed. -/
structure Printed where
  output : String := ""
  errors : String := ""
deriving Repr, DecidableEq

/-- What comes of a command: its exit code and what it printed. -/
structure Outcome where
  exit : Nat
  printed : Printed
deriving Repr, DecidableEq

/-- A command in progress. -/
abbrev Session (m : Type → Type) := ExceptT CommandError (StateT Printed m)

/-- Where a command finds its files, and whether it prints in colour. -/
structure Setting (m : Type → Type) where
  files : Files.Access m
  colored : Bool

/-- The colours of printed marks. -/
inductive Color where
  | red
  | green
deriving Repr, DecidableEq

/-- The code of a colour. -/
def Color.code : Color → String
  | red => "31"
  | green => "32"

/-- A text in a colour, if there are colours. -/
def painted (colored : Bool) (color : Color) (text : String) : String :=
  if colored then "\x1b[" ++ color.code ++ "m" ++ text ++ "\x1b[0m" else text

variable {m : Type → Type} [Monad m]

/-- Prints a line. -/
def say (line : String) : Session m Unit :=
  modify fun p => { p with output := p.output ++ line ++ "\n" }

/-- Prints a line of remarks. -/
def remark (line : String) : Session m Unit :=
  modify fun p => { p with errors := p.errors ++ line ++ "\n" }

/-- Goes on with the result of an action, or fails. -/
def orFail {α ε : Type} (failure : ε → CommandError) (action : m (Except ε α)) : Session m α := do
  match ← (action : m (Except ε α)) with
  | .ok result => return result
  | .error e => throw (failure e)

/-- Goes on with a result, or fails. -/
def okOrFail {α ε : Type} (failure : ε → CommandError) (result : Except ε α) : Session m α :=
  orFail failure (pure result)

/-! ## Inputs -/

/-- The text of a file. -/
def readSource (files : Files.Access m) (path : String) : Session m String :=
  orFail (.unreadable path) (files.read path)

/-- The schema in a file. -/
def readSchema (files : Files.Access m) (path : String) : Session m Schema := do
  let source ← readSource files path
  okOrFail (.badSchema path) (Schema.ofText source)

/-- The shared definitions, of which there are none if no file is given. -/
def Inputs.readDefinitions (files : Files.Access m) (i : Inputs) : Session m (Assoc Schema) := do
  match i.definitions with
  | none => return []
  | some path =>
    let source ← readSource files path
    okOrFail (.badDefinitions path) (definitionsOfText source)

/-- The paths that one input stands for: itself, unless it is a pattern. -/
def inputPaths (files : Files.Access m) (input : String) : Session m (List String) := do
  if !Files.Glob.isPattern input then return [input]
  let pattern ← okOrFail (fun e => .inputs (.badPattern input e)) (Files.Glob.Pattern.ofText input)
  let paths ← orFail (fun e => .inputs (.unlisted e)) (pattern.paths files).run
  if paths.isEmpty then throw (.inputs (.noMatch input))
  return paths

/-- The paths that the inputs stand for, in the order of the inputs. -/
def Inputs.paths (files : Files.Access m) (i : Inputs) : Session m (List String) := do
  return (← i.patterns.mapM (inputPaths files)).flatten

/-! ## Grammars -/

/-- The grammar of the schema in a file. -/
def compileFile (files : Files.Access m) (definitions : Assoc Schema) (options : Options)
    (path : String) : Session m (String × String) := do
  let schema ← readSchema files path
  let grammar ← okOrFail (.notCompiled path) (grammarText schema definitions options)
  return (path, grammar)

/-- The name of the file that gets the grammar of a schema file. -/
def grammarFileName (path : String) : String :=
  ((Files.fileName? path).map Files.withoutExtension).getD "schema" ++ ".gbnf"

/-- Writes each grammar to a file of its own. -/
def writeGrammars (setting : Setting m) (directory : String) (grammars : List (String × String)) :
    Session m Unit := do
  orFail (.noDirectory directory)
    (setting.files.makeDirectories directory (Files.parents directory))
  for (path, grammar) in grammars do
    let target := Files.join directory (grammarFileName path)
    orFail (.notWritten target) (setting.files.write target grammar)
    remark (painted setting.colored .green "wrote" ++ " " ++ target)

/-- Prints the grammars; if there are several, each under the path of its schema. -/
def printGrammars : List (String × String) → Session m Unit
  | [(_, grammar)] => say grammar
  | grammars => do
    for (path, grammar) in grammars do
      say ("# " ++ path)
      say (grammar ++ "\n")

/-- Runs `grammar`. Nothing is written or printed unless every schema has a grammar. -/
def GrammarCommand.run (setting : Setting m) (c : GrammarCommand) : Session m Unit := do
  let paths ← c.inputs.paths setting.files
  let definitions ← c.inputs.readDefinitions setting.files
  let grammars ← paths.mapM (compileFile setting.files definitions c.options)
  match c.outDirectory with
  | some directory => writeGrammars setting directory grammars
  | none => printGrammars grammars

/-! ## Validation -/

/-- The documents in a text, each under its label. Line by line, every line that is not blank is a
document, labelled with its number. -/
def documents (lineByLine : Bool) (path source : String) : List (String × String) :=
  if lineByLine then
    ((Text.lines source).mapIdx fun n line => (path ++ ":" ++ toString (n + 1), line)).filter
      fun document => !Text.isBlankText document.2
  else [(path, source)]

/-- What is wrong with a document, if anything. -/
def complaint? (schema : Schema) (definitions : Assoc Schema) (text : String) : Option String :=
  match Json.parseDocument text with
  | .error fault => some (Mismatch.notJson fault).message
  | .ok value =>
    match validate schema definitions value with
    | .ok () => none
    | .error failure => some failure.text

/-- Checks a document and prints the verdict. The result tells whether it fits. -/
def checkDocument (colored : Bool) (schema : Schema) (definitions : Assoc Schema)
    (document : String × String) : Session m Bool := do
  match complaint? schema definitions document.2 with
  | none =>
    say (painted colored .green "✓" ++ " " ++ document.1)
    return true
  | some complaint =>
    say (painted colored .red "✗" ++ " " ++ document.1 ++ ": " ++ complaint)
    return false

/-- Runs `validate`, which fails at the end if a document does not fit. -/
def ValidateCommand.run (setting : Setting m) (c : ValidateCommand) : Session m Unit := do
  let schema ← readSchema setting.files c.schema
  let definitions ← c.inputs.readDefinitions setting.files
  let paths ← c.inputs.paths setting.files
  let verdicts ← paths.mapM fun path => do
    let source ← readSource setting.files path
    (documents c.lineByLine path source).mapM (checkDocument setting.colored schema definitions)
  let verdicts := verdicts.flatten
  let failed := verdicts.count false
  if failed > 0 then throw (.documentsFailed failed verdicts.length)

/-! ## Whole command lines -/

/-- Runs a command; asked for the outline of `grammar`, only prints it. -/
def Invocation.session (setting : Setting m) (i : Invocation) : Session m Unit :=
  match i.action with
  | .grammar command => if command.outlineOnly then remark i.outline else command.run setting
  | .validate command => command.run setting

/-- Runs a command to its end. The report of a failure comes after what was printed before. -/
def Invocation.run (setting : Setting m) (i : Invocation) : m Outcome := do
  match ← (i.session setting).run.run {} with
  | (.ok (), printed) => return ⟨0, printed⟩
  | (.error e, printed) => return ⟨1, { printed with errors := printed.errors ++ e.report }⟩

/-- Runs a command line to its end. One that is not understood is answered with exit code 2. -/
def runArguments (setting : Setting m) (arguments : List String) : m Outcome := do
  match Invocation.ofArguments arguments with
  | .ok invocation => invocation.run setting
  | .error e => return ⟨2, { errors := "error: " ++ e.message ++ "\n" }⟩

end Command

end SchemaGrammar
