import SchemaGrammar.Schema.Basic

/-!
# Values of schemas

A schema written back as a value: one member for each keyword that is present, in the order of
positions, and definitions under their newer spelling.
-/

namespace SchemaGrammar

open Json (Value)

/-- The value of a count. -/
def countValue (n : Nat) : Value := .number (.integer n)

/-- One type is written as a string, a list of types as a list. -/
def TypeSet.toValue : TypeSet → Value
  | .one type => .string type.name
  | .many types => .array (types.map fun type => .string type.name)

/-- A member that is written only if it is present. -/
def optionalMember (name : String) : Option Value → List (String × Value)
  | none => []
  | some value => [(name, value)]

namespace Schema

mutual

/-- The value of a schema. -/
def toValue : Schema → Value
  | ⟨types, properties, required, additional, items, prefixItems, minItems, maxItems, minLength,
      maxLength, format, enumeration, constant, oneOf, anyOf, definitions, reference,
      description⟩ =>
    .object <|
      optionalMember "type" (types.map TypeSet.toValue) ++
      optionalMember "properties" (entriesValue properties) ++
      optionalMember "required" (required.map fun keys => .array (keys.map .string)) ++
      optionalMember "additionalProperties" (additionalValue additional) ++
      optionalMember "items" (fragmentValue items) ++
      optionalMember "prefixItems" (fragmentsValue prefixItems) ++
      optionalMember "minItems" (minItems.map countValue) ++
      optionalMember "maxItems" (maxItems.map countValue) ++
      optionalMember "minLength" (minLength.map countValue) ++
      optionalMember "maxLength" (maxLength.map countValue) ++
      optionalMember "format" (format.map .string) ++
      optionalMember "enum" (enumeration.map .array) ++
      optionalMember "const" constant ++
      optionalMember "oneOf" (fragmentsValue oneOf) ++
      optionalMember "anyOf" (fragmentsValue anyOf) ++
      optionalMember "$defs" (entriesValue definitions) ++
      optionalMember "$ref" (reference.map .string) ++
      optionalMember "description" (description.map .string)

/-- The value of a fragment that may be absent. -/
def fragmentValue : Option Schema → Option Value
  | none => none
  | some s => some (toValue s)

/-- The value of `additionalProperties`. -/
def additionalValue : Option (Additional Schema) → Option Value
  | none => none
  | some (.allowed yes) => some (.bool yes)
  | some (.schema s) => some (toValue s)

/-- The value of a list of fragments that may be absent. -/
def fragmentsValue : Option (List Schema) → Option Value
  | none => none
  | some fragments => some (.array (fragmentValues fragments))

/-- The values of fragments, in order. -/
def fragmentValues : List Schema → List Value
  | [] => []
  | s :: rest => toValue s :: fragmentValues rest

/-- The value of named fragments that may be absent. -/
def entriesValue : Option (List (String × Schema)) → Option Value
  | none => none
  | some entries => some (.object (entryValues entries))

/-- The values of named fragments, in order. -/
def entryValues : List (String × Schema) → List (String × Value)
  | [] => []
  | (name, s) :: rest => (name, toValue s) :: entryValues rest

end

end Schema

end SchemaGrammar
