import SchemaGrammar.Text.Quoted

/-!
# Places in a value

A place in a value is a path of member names and list positions from the root. Its text begins
with `$`; a name of letters, digits and underscores follows a dot, any other is quoted in
brackets.
-/

namespace SchemaGrammar

/-- One step into a value. -/
inductive PathStep where
  | key (name : String)
  | index (i : Nat)
deriving Repr, DecidableEq

/-- A place in a value, the innermost step first. -/
abbrev Path := List PathStep

/-- Whether a member name is written without quotes. -/
def isPlainKey (name : String) : Bool :=
  !name.isEmpty && name.toList.all fun c => c.isAlphanum || c = '_'

/-- The text of a step. -/
def PathStep.text : PathStep → String
  | .key name => if isPlainKey name then "." ++ name else "[" ++ Text.quoted name ++ "]"
  | .index i => "[" ++ toString i ++ "]"

/-- The text of a path. -/
def Path.text : Path → String
  | [] => "$"
  | step :: outer => Path.text outer ++ step.text

end SchemaGrammar
