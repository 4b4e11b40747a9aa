import SchemaGrammar.Error
import SchemaGrammar.Files.Access
import SchemaGrammar.Files.Search

/-!
# How a command fails

A failure is told from the outside in: what was being done, and below it why that was not possible.
-/

namespace SchemaGrammar

namespace Command

/-- Why the input files could not be listed. -/
inductive InputProblem where
  | badPattern (pattern : String) (error : Files.Glob.PatternError)
  | unlisted (error : Files.Glob.ListingError)
  | noMatch (pattern : String)
deriving Repr, DecidableEq

/-- How a command fails. -/
inductive CommandError where
  | inputs (problem : InputProblem)
  | unreadable (path : String) (problem : Files.Problem)
  | badDefinitions (path : String) (fault : Json.ReadError)
  | badSchema (path : String) (fault : Json.ReadError)
  | notCompiled (path : String) (error : CompileError)
  | noDirectory (path : String) (problem : Files.Problem)
  | notWritten (path : String) (problem : Files.Problem)
  | documentsFailed (failed checked : Nat)
deriving Repr

/-- The wording of an input problem, the outermost message first. -/
def InputProblem.messages : InputProblem → List String
  | .badPattern pattern error => ["invalid glob pattern: " ++ pattern, error.message]
  | .unlisted error => [error.message]
  | .noMatch pattern => ["glob pattern matched no files: " ++ pattern]

namespace CommandError

/-- The wording of a failure, the outermost message first. -/
def messages : CommandError → List String
  | inputs problem => "failed to resolve input file paths" :: problem.messages
  | unreadable path problem => ["failed to read source file (" ++ path ++ ")", problem.message]
  | badDefinitions path fault =>
    ["failed to parse defs file (" ++ path ++ ")", (CompileError.invalidSchema fault).message]
  | badSchema path fault =>
    ["failed to parse schema (" ++ path ++ ")", (CompileError.invalidSchema fault).message]
  | notCompiled path error => ["failed to compile schema (" ++ path ++ ")", error.message]
  | noDirectory path problem =>
    ["failed to create output directory (" ++ path ++ ")", problem.message]
  | notWritten path problem => ["failed to write grammar (" ++ path ++ ")", problem.message]
  | documentsFailed failed checked =>
    [toString failed ++ " of " ++ toString checked ++ " documents failed validation"]

/-- A message whose further lines start below its first. -/
def hanging (first indent message : String) : String :=
  first ++ ("\n" ++ indent).intercalate ((message.toList.splitOn '\n').map String.ofList)

/-- The causes of a failure, numbered if there is more than one. -/
def causeLines : List String → List String
  | [cause] => [hanging "    " "    " cause]
  | causes => causes.mapIdx fun n cause => hanging ("    " ++ toString n ++ ": ") "       " cause

/-- The report of a failure. -/
def report (e : CommandError) : String :=
  match e.messages with
  | [] => "Error: \n"
  | [message] => "Error: " ++ message ++ "\n"
  | message :: causes =>
    "Error: " ++ message ++ "\n\nCaused by:\n" ++ String.join (causeLines causes |>.map (· ++ "\n"))

end CommandError

end Command

end SchemaGrammar
