import SchemaGrammar.Json.Problem
import SchemaGrammar.Schema.Keyword

/-!
# Schemas from values

A value is read in the form that is wanted of it. The first problem in the order of the document
is reported, with its place.

## Main definitions

* `Json.Value.inForm`: a value in a wanted form.
* `Schema.ofValue`, `definitionsOfValue`: a schema, and a map of named schemas.
-/

namespace SchemaGrammar

open Json (Value Problem ReadError Step)

/-- The one type that a value names: its spelling, or an object that maps its spelling to null. -/
def TypeName.ofValue? : Value → Option TypeName
  | .string text => TypeName.ofName? text
  | .object [(text, .null)] => TypeName.ofName? text
  | _ => none

/-- The types that a value names: one of them, or a list. -/
def TypeSet.ofValue? : Value → Option TypeSet
  | .array items => (items.mapM TypeName.ofValue?).map .many
  | value => (TypeName.ofValue? value).map .one

/-- A problem with a value, at the value itself. -/
def Json.Problem.here (problem : Problem) : ReadError := ⟨[], problem, none⟩

/-- The error, one step further out. -/
def Json.ReadError.under (step : Step) (e : ReadError) : ReadError :=
  { e with place := step :: e.place }

/-- A number that is to be a count up to `most`. -/
def countOf (wanted : Json.Wanted) (most : Nat) : Json.Number → Except Problem Nat
  | .integer n =>
    if 0 ≤ n && n ≤ most then .ok n.toNat else .error (.outOfRange n wanted)
  | .real x => .error (.mismatch (.number (.real x)) wanted)

/-- The schema with one more keyword set to what its value was read as. A null that means absence
leaves the schema as it is. -/
def Schema.putRead (s : Schema) (k : Keyword) (value : Value)
    (read : Except ReadError k.form.Carrier) : Except ReadError Schema :=
  if k.nullable && value.kind = .null then .ok s else read.map (s.put k)

namespace Json.Value

mutual

/-- A value in a wanted form. -/
def inForm : (form : Form) → Value → Except ReadError form.Carrier
  | .text, .string text => .ok text
  | .text, value => .error (Problem.mismatch value.found .string).here
  | .count, .number n => (countOf .count maxCount n).mapError Problem.here
  | .count, value => .error (Problem.mismatch value.found .count).here
  | .value, value => .ok value.collapsed
  | .types, value =>
    match TypeSet.ofValue? value with
    | some types => .ok types
    | none => .error (Problem.noForm .types).here
  | .additional, .bool yes => .ok (.allowed yes)
  | .additional, .object members =>
    match schemaOfMembers members [] {} with
    | .ok fragment => .ok (.schema fragment)
    | .error _ => .error (Problem.noForm .additionalProperties).here
  | .additional, .array items =>
    match schemaOfPositions items items.length 0 Keyword.all {} with
    | .ok fragment => .ok (.schema fragment)
    | .error _ => .error (Problem.noForm .additionalProperties).here
  | .additional, _ => .error (Problem.noForm .additionalProperties).here
  | .schema, .object members => schemaOfMembers members [] {}
  | .schema, .array items => schemaOfPositions items items.length 0 Keyword.all {}
  | .schema, value => .error (Problem.mismatch value.found .schema).here
  | .listOf item, .array items => itemsInForm item items 0
  | .listOf _, value => .error (Problem.mismatch value.found .list).here
  | .mapOf entry, .object members => (entriesInForm entry members).map Assoc.ofList
  | .mapOf _, value => .error (Problem.mismatch value.found .map).here

/-- The items of a list from position `index` on. -/
def itemsInForm (form : Form) : List Value → Nat → Except ReadError (List form.Carrier)
  | [], _ => .ok []
  | value :: values, index => do
    let item ← (inForm form value).mapError (·.under (.index index))
    let items ← itemsInForm form values (index + 1)
    return item :: items

/-- The entries of a map, with repeated names. -/
def entriesInForm (form : Form) :
    List (String × Value) → Except ReadError (List (String × form.Carrier))
  | [] => .ok []
  | (name, value) :: members => do
    let entry ← (inForm form value).mapError (·.under (.key name))
    let entries ← entriesInForm form members
    return (name, entry) :: entries

/-- The schema given by the members of an object; `seen` are the keywords met so far. -/
def schemaOfMembers :
    List (String × Value) → (seen : List Keyword) → Schema → Except ReadError Schema
  | [], _, s => .ok s
  | (name, value) :: members, seen, s =>
    match Keyword.ofName? name with
    | none => schemaOfMembers members seen s
    | some k =>
      if k ∈ seen then .error (Problem.duplicate k.name).here
      else do
        let s ← (s.putRead k value (inForm k.form value)).mapError (·.under (.key name))
        schemaOfMembers members (k :: seen) s

/-- The schema given by the items of a list of `length` items, which stand for the given
keywords. -/
def schemaOfPositions : List Value → (length index : Nat) → List Keyword → Schema →
    Except ReadError Schema
  | [], _, _, _, s => .ok s
  | _ :: _, length, _, [], _ => .error (Problem.tooLong length).here
  | value :: values, length, index, k :: keywords, s => do
    let s ← (s.putRead k value (inForm k.form value)).mapError (·.under (.index index))
    schemaOfPositions values length (index + 1) keywords s

end

end Json.Value

/-- The schema that a value describes. -/
def Schema.ofValue (value : Value) : Except ReadError Schema := value.inForm .schema

/-- The named schemas that a value describes. -/
def definitionsOfValue (value : Value) : Except ReadError (Assoc Schema) :=
  value.inForm (.mapOf .schema)

end SchemaGrammar
