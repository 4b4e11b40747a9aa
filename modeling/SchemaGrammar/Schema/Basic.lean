import SchemaGrammar.Json.Value

/-!
# Schemas

The part of JSON Schema that has a grammar: types, objects, arrays, strings, literals, unions and
local definitions. A keyword that is absent is `none`; a constant `null` is a constant all the
same.

## Main definitions

* `Schema`: one fragment of a schema document.
* `Schema.isRequired`: whether a property must be present.
* `definitionName?`: the definition that a local reference names.
-/

namespace SchemaGrammar

/-- The names that `type` may take. -/
inductive TypeName where
  | string | number | integer | boolean | null | object | array
deriving Repr, DecidableEq, Inhabited

namespace TypeName

/-- All type names. -/
def all : List TypeName := [.string, .number, .integer, .boolean, .null, .object, .array]

/-- The spelling of a type name. -/
def name : TypeName → String
  | .string => "string"
  | .number => "number"
  | .integer => "integer"
  | .boolean => "boolean"
  | .null => "null"
  | .object => "object"
  | .array => "array"

/-- The type with the given spelling. -/
def ofName? (text : String) : Option TypeName := all.find? (·.name == text)

@[simp] theorem ofName?_name (t : TypeName) : ofName? t.name = some t := by
  cases t <;> decide

end TypeName

/-- The value of `type`: one name, or a list of them. -/
inductive TypeSet where
  | one (type : TypeName)
  | many (types : List TypeName)
deriving Repr, DecidableEq

/-- The types that are allowed, in order. -/
def TypeSet.types : TypeSet → List TypeName
  | .one type => [type]
  | .many types => types

/-- The value of `additionalProperties`: whether undeclared members are allowed, or what they
must be. -/
inductive Additional (σ : Type) where
  | allowed (yes : Bool)
  | schema (fragment : σ)
deriving Repr

/-- One fragment of a schema document. -/
structure Schema where
  types : Option TypeSet := none
  properties : Option (List (String × Schema)) := none
  required : Option (List String) := none
  additional : Option (Additional Schema) := none
  items : Option Schema := none
  prefixItems : Option (List Schema) := none
  minItems : Option Nat := none
  maxItems : Option Nat := none
  minLength : Option Nat := none
  maxLength : Option Nat := none
  format : Option String := none
  enumeration : Option (List Json.Value) := none
  constant : Option Json.Value := none
  oneOf : Option (List Schema) := none
  anyOf : Option (List Schema) := none
  definitions : Option (List (String × Schema)) := none
  reference : Option String := none
  description : Option String := none
deriving Repr, Inhabited

/-- The string formats that have a grammar. Any other format is an annotation. -/
inductive TextFormat where
  | date | time | dateTime
deriving Repr, DecidableEq, Inhabited

namespace TextFormat

/-- All formats. -/
def all : List TextFormat := [.date, .time, .dateTime]

/-- The spelling of a format. -/
def name : TextFormat → String
  | .date => "date"
  | .time => "time"
  | .dateTime => "date-time"

/-- The format with the given spelling. -/
def ofName? (text : String) : Option TextFormat := all.find? (·.name == text)

@[simp] theorem ofName?_name (f : TextFormat) : ofName? f.name = some f := by
  cases f <;> decide

end TextFormat

namespace Schema

/-- The format of the fragment's strings, if it has a grammar. -/
def textFormat? (s : Schema) : Option TextFormat := s.format.bind TextFormat.ofName?

/-- Whether the property `key` must be present. Without a list of required properties all are. -/
def isRequired (s : Schema) (key : String) : Bool :=
  match s.required with
  | none => true
  | some keys => keys.contains key

/-- The declared properties, in order. -/
def declared (s : Schema) : Assoc Schema := s.properties.getD []

/-- The definitions of the fragment itself, in order. -/
def ownDefinitions (s : Schema) : Assoc Schema := s.definitions.getD []

end Schema

/-- What is left of `text` after `lead`, if it begins so. -/
def afterLead? (lead text : String) : Option String :=
  if lead.toList.isPrefixOf text.toList then
    some (String.ofList (text.toList.drop lead.toList.length))
  else none

/-- The name in a local reference: what follows `#/$defs/` or `#/definitions/`, if anything. -/
def definitionName? (reference : String) : Option String :=
  ((afterLead? "#/$defs/" reference).or (afterLead? "#/definitions/" reference)).filter
    fun name => !name.isEmpty

end SchemaGrammar
