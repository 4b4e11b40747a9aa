import SchemaGrammar.Options
import SchemaGrammar.Text.Quoted

/-!
# Invocations

What a command line asks for. `grammar` compiles schema files, `validate` checks documents against
one schema.

## Main definitions

* `Invocation`: a command with its settings.
* `Invocation.outline`: the settings in full, for looking at what was understood.
-/

namespace SchemaGrammar

namespace Command

/-- The files a command works on, and the shared definitions. -/
structure Inputs where
  patterns : List String
  definitions : Option String
deriving Repr, DecidableEq

/-- Settings of `grammar`. -/
structure GrammarCommand where
  inputs : Inputs
  noNewLines : Bool
  padSpaces : Nat
  trailingNewLines : Nat
  outDirectory : Option String
  outlineOnly : Bool
deriving Repr, DecidableEq

/-- The compiler options that the settings stand for. -/
def GrammarCommand.options (c : GrammarCommand) : Options where
  allowNewLines := !c.noNewLines
  padSpaces := c.padSpaces
  trailingNewLines := c.trailingNewLines

/-- Settings of `validate`. -/
structure ValidateCommand where
  schema : String
  inputs : Inputs
  lineByLine : Bool
deriving Repr, DecidableEq

/-- A command with its settings. -/
inductive Action where
  | grammar (command : GrammarCommand)
  | validate (command : ValidateCommand)
deriving Repr, DecidableEq

/-- A command line that was understood. -/
structure Invocation where
  verbose : Bool
  action : Action
deriving Repr, DecidableEq

/-! ## Outlines -/

/-- An outline is a list of lines; nested lines are indented by four spaces. -/
abbrev Outline := List String

namespace Outline

/-- Nested lines between an opening and a closing line. -/
def block (first : String) (inner : Outline) (last : String) : Outline :=
  first :: inner.map ("    " ++ ·) ++ [last]

/-- An outline that is followed by a comma. -/
def item : Outline → Outline
  | [] => []
  | [line] => [line ++ ","]
  | line :: rest => line :: item rest

/-- A named part of a record. -/
def field (name : String) : Outline → Outline
  | [] => []
  | line :: rest => item ((name ++ ": " ++ line) :: rest)

/-- A record with its parts. -/
def record (name : String) (fields : List Outline) : Outline :=
  block (name ++ " \x7b") fields.flatten "\x7d"

/-- A constructor with one part. -/
def wrapped (name : String) (part : Outline) : Outline := block (name ++ "(") (item part) ")"

/-- A list with its items. -/
def list : List Outline → Outline
  | [] => ["[]"]
  | items => block "[" (items.flatMap item) "]"

/-- A piece of text. -/
def text (s : String) : Outline := [Text.quoted s]

/-- A number. -/
def number (n : Nat) : Outline := [toString n]

/-- A truth value. -/
def flag (b : Bool) : Outline := [if b then "true" else "false"]

/-- A piece of text that may be absent. -/
def optionalText : Option String → Outline
  | none => ["None"]
  | some s => wrapped "Some" (text s)

end Outline

/-- The outline of the inputs. -/
def Inputs.outline (i : Inputs) : Outline :=
  .record "InputSettings"
    [.field "input" (.list (i.patterns.map Outline.text)),
     .field "defs" (.optionalText i.definitions)]

/-- The outline of the settings of `grammar`. -/
def GrammarCommand.outline (c : GrammarCommand) : Outline :=
  .record "GrammarOut"
    [.field "input_settings" c.inputs.outline,
     .field "format_settings" (.record "FormatSettings"
       [.field "no_new_lines" (.flag c.noNewLines),
        .field "pad_spaces" (.number c.padSpaces),
        .field "trailing_new_lines" (.number c.trailingNewLines)]),
     .field "out_dir" (.optionalText c.outDirectory),
     .field "no_op" (.flag c.outlineOnly)]

/-- The outline of the settings of `validate`. -/
def ValidateCommand.outline (c : ValidateCommand) : Outline :=
  .record "ValidateOut"
    [.field "schema" (.text c.schema),
     .field "input_settings" c.inputs.outline,
     .field "ndjson" (.flag c.lineByLine)]

/-- The outline of a command. -/
def Action.outline : Action → Outline
  | .grammar command => .wrapped "Grammar" command.outline
  | .validate command => .wrapped "Validate" command.outline

/-- The outline of a command line. -/
def Invocation.outline (i : Invocation) : String :=
  "\n".intercalate (Outline.record "CommandLineInterface"
    [.field "verbose" (.flag i.verbose), .field "cmd" i.action.outline])

end Command

end SchemaGrammar
