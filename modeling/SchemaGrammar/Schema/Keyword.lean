import SchemaGrammar.Schema.Basic

/-!
# Keywords and the forms of their values

Every keyword of a schema wants a value of a certain form. A form tells both how a value is read
and what it is read into, so reading from values and from text need no cases for single keywords.
A schema may also be written as a list, which gives the keywords by position.

## Main definitions

* `Keyword`: the keywords, in the order of positions.
* `Form`, `Form.Carrier`: the forms and the type of what is read.
* `Schema.put`: a schema with the value of one keyword set.
-/

namespace SchemaGrammar

/-- The keywords that mean something. -/
inductive Keyword where
  | type | properties | required | additionalProperties | items | prefixItems | minItems | maxItems
  | minLength | maxLength | format | enumeration | constant | oneOf | anyOf | definitions
  | reference | description
deriving Repr, DecidableEq

namespace Keyword

/-- All keywords, by position. -/
def all : List Keyword :=
  [.type, .properties, .required, .additionalProperties, .items, .prefixItems, .minItems, .maxItems,
   .minLength, .maxLength, .format, .enumeration, .constant, .oneOf, .anyOf, .definitions,
   .reference, .description]

/-- The spelling of a keyword. -/
def name : Keyword → String
  | .type => "type"
  | .properties => "properties"
  | .required => "required"
  | .additionalProperties => "additionalProperties"
  | .items => "items"
  | .prefixItems => "prefixItems"
  | .minItems => "minItems"
  | .maxItems => "maxItems"
  | .minLength => "minLength"
  | .maxLength => "maxLength"
  | .format => "format"
  | .enumeration => "enum"
  | .constant => "const"
  | .oneOf => "oneOf"
  | .anyOf => "anyOf"
  | .definitions => "$defs"
  | .reference => "$ref"
  | .description => "description"

/-- The keyword with the given spelling. Definitions have an older spelling as well. -/
def ofName? (text : String) : Option Keyword :=
  if text = "definitions" then some .definitions else all.find? (·.name == text)

@[simp] theorem ofName?_name (k : Keyword) : ofName? k.name = some k := by
  cases k <;> decide

end Keyword

/-- The forms that the value of a keyword may be wanted in. -/
inductive Form where
  | text
  | count
  | value
  | types
  | additional
  | schema
  | listOf (item : Form)
  | mapOf (entry : Form)
deriving Repr, DecidableEq

/-- What a value of a form is read into. -/
abbrev Form.Carrier : Form → Type
  | .text => String
  | .count => Nat
  | .value => Json.Value
  | .types => TypeSet
  | .additional => Additional Schema
  | .schema => Schema
  | .listOf item => List item.Carrier
  | .mapOf entry => List (String × entry.Carrier)

/-- The largest count. -/
def maxCount : Nat := UInt32.size - 1

namespace Keyword

/-- The form of a keyword's value. -/
abbrev form : Keyword → Form
  | .type => .types
  | .properties | .definitions => .mapOf .schema
  | .required => .listOf .text
  | .additionalProperties => .additional
  | .items => .schema
  | .prefixItems | .oneOf | .anyOf => .listOf .schema
  | .minItems | .maxItems | .minLength | .maxLength => .count
  | .format | .reference | .description => .text
  | .enumeration => .listOf .value
  | .constant => .value

/-- Whether `null` means that the keyword is absent. It does for all but the constant. -/
def nullable (k : Keyword) : Bool := k ≠ .constant

end Keyword

/-- The schema with the value of one keyword set. -/
def Schema.put (s : Schema) : (k : Keyword) → k.form.Carrier → Schema
  | .type, x => { s with types := some x }
  | .properties, x => { s with properties := some x }
  | .required, x => { s with required := some x }
  | .additionalProperties, x => { s with additional := some x }
  | .items, x => { s with items := some x }
  | .prefixItems, x => { s with prefixItems := some x }
  | .minItems, x => { s with minItems := some x }
  | .maxItems, x => { s with maxItems := some x }
  | .minLength, x => { s with minLength := some x }
  | .maxLength, x => { s with maxLength := some x }
  | .format, x => { s with format := some x }
  | .enumeration, x => { s with enumeration := some x }
  | .constant, x => { s with constant := some x }
  | .oneOf, x => { s with oneOf := some x }
  | .anyOf, x => { s with anyOf := some x }
  | .definitions, x => { s with definitions := some x }
  | .reference, x => { s with reference := some x }
  | .description, x => { s with description := some x }

end SchemaGrammar
