import SchemaGrammar.Check.Checker
import SchemaGrammar.Json.Reader
import SchemaGrammar.Options
import SchemaGrammar.Rules.Emitter
import SchemaGrammar.Shape.Lowering

/-!
# Compiling schemas

A schema is lowered to shapes, the shapes are written as rules, and the rules are written as text.
A compiled schema keeps what it was made from, so that texts written under its grammar can be read
and checked.

## Main definitions

* `grammarText`: the grammar of a schema.
* `CompiledSchema.parse`: the value of a text that fits the schema.
-/

namespace SchemaGrammar

/-- The grammar of a schema, the root rule first. -/
def grammarText (s : Schema) (external : Assoc Schema) (options : Options) :
    Except CompileError String := do
  let lowered ← lower s external options.layout
  match (Emitter.emit lowered.shapes lowered.root).run (Emitter.start lowered.shapes) with
  | (.ok (), emitter) => return emitter.text options.trailingNewLines
  | (.error e, _) => throw e

/-- A schema together with its grammar. -/
structure CompiledSchema where
  schema : Schema
  external : Assoc Schema
  options : Options
  grammar : String
deriving Repr

namespace CompiledSchema

/-- Compiles a schema. -/
def compile (schema : Schema) (external : Assoc Schema) (options : Options) :
    Except CompileError CompiledSchema := do
  let grammar ← grammarText schema external options
  return { schema, external, options, grammar }

/-- The value of a text, if it is JSON and fits the schema. -/
def parse (c : CompiledSchema) (text : String) : Except Failure Json.Value :=
  match Json.parseDocument text with
  | .error fault => .error ⟨[], .notJson fault⟩
  | .ok value => (validate c.schema c.external value).map fun () => value

end CompiledSchema

end SchemaGrammar
