import SchemaGrammar.Json.Problem

/-!
# Why a schema has no grammar

Every one of these ends a compilation: there is no grammar with gaps.
-/

namespace SchemaGrammar

/-- A combination of keywords that has no grammar. -/
inductive Unsupported where
  | bothUnions
  | emptyTypes
  | undeclaredRequired (key : String)
  | itemBounds (least most : Nat)
  | emptyEnumeration
  | emptyUnion
  | selfReference (name : String)
  | lengthBounds (least most : Nat)
deriving Repr, DecidableEq

/-- The wording of such a combination. -/
def Unsupported.message : Unsupported → String
  | .bothUnions => "oneOf and anyOf on the same schema"
  | .emptyTypes => "empty type list"
  | .undeclaredRequired key =>
    "required property " ++ Text.quoted key ++ " is not declared in properties"
  | .itemBounds least most =>
    "minItems " ++ toString least ++ " exceeds maxItems " ++ toString most
  | .emptyEnumeration => "enum without values"
  | .emptyUnion => "oneOf/anyOf without branches"
  | .selfReference name =>
    "def " ++ Text.quoted name ++ " refers back to itself before matching any input"
  | .lengthBounds least most =>
    "minLength " ++ toString least ++ " exceeds maxLength " ++ toString most

/-- Why a schema has no grammar. -/
inductive CompileError where
  | literalKind (literal : Json.Value)
  | unresolvedReference (reference : String)
  | unsupported (construct : Unsupported)
  | invalidSchema (fault : Json.ReadError)
  | exhausted (definition : String)
  | malformedShapes (id : Nat)
deriving Repr

/-- The wording of an error. -/
def CompileError.message : CompileError → String
  | .literalKind literal =>
    "unrecognized literal type: " ++ literal.kind.name ++ " (" ++ literal.text ++ ")"
  | .unresolvedReference reference => "unresolved reference: " ++ reference
  | .unsupported construct => "unsupported schema construct: " ++ construct.message
  | .invalidSchema fault =>
    "invalid schema at JSON path " ++ Json.placeText fault.place ++ ": " ++ fault.message
  | .exhausted definition => "def " ++ Text.quoted definition ++ " nests without end"
  | .malformedShapes id => "no shape can be written for entry " ++ toString id

end SchemaGrammar
