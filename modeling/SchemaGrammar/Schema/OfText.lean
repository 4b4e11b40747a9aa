import SchemaGrammar.Json.Reader
import SchemaGrammar.Json.Skipper
import SchemaGrammar.Schema.OfValue

/-!
# Schemas from text

A schema is read straight from its text, keyword by keyword, so that the first problem in the text
is the one reported, with line and column. Values of keywords that mean nothing here are skipped.
What follows the schema in the text is not looked at.

A value of the wrong form is reported after its last character, a list or object before its
bracket. A repeated keyword, or a value that has none of the forms a keyword allows, is reported
where the bracket around it would be closed.

## Main definitions

* `Json.Reader.form`: a value in a wanted form.
* `Schema.ofText`, `definitionsOfText`: a schema, and a map of named schemas.
-/

namespace SchemaGrammar

namespace Json

/-- The offset after an attempt to close an object here. -/
def Cursor.afterObject (c : Cursor) : Nat :=
  let c := c.skipBlanks
  if c.rest.head? = some '}' then c.skip.offset else c.offset

/-- The offset after an attempt to close a list here. -/
def Cursor.afterList (c : Cursor) : Nat :=
  let c := c.skipBlanks
  match c.rest.head? with
  | some ']' => c.skip.offset
  | some ',' => c.skip.skipBlanks.offset
  | _ => c.offset

namespace Reader

variable {α : Type}

/-- Stops because of a value that began with the next character and is not what was wanted. -/
def mismatch (wanted : Wanted) : Reader α := do
  match ← peekToken with
  | none => failAhead .endInValue
  | some 'n' => eat; letters ['u', 'l', 'l']; reject (.mismatch .null wanted)
  | some 't' => eat; letters ['r', 'u', 'e']; reject (.mismatch (.boolean true) wanted)
  | some 'f' => eat; letters ['a', 'l', 's', 'e']; reject (.mismatch (.boolean false) wanted)
  | some '"' =>
    let found ← string
    reject (.mismatch (.string found) wanted)
  | some '[' => reject (.mismatch .list wanted)
  | some '{' => reject (.mismatch .map wanted)
  | some c =>
    if c = '-' || c.isDigit then
      let found ← number
      reject (.mismatch (.number found) wanted)
    else failAhead .expectedValue

/-- Stops because of a value that the bracket around it does not allow; `closing` gives the offset
where that bracket would be closed. -/
def rejectInside (closing : Cursor → Nat) (problem : Problem) : Reader α := fun c =>
  .error { problem, offset := closing c }

/-- Reads a string. -/
def textForm : Reader String := do
  match ← peekToken with
  | some '"' => string
  | _ => mismatch .string

/-- Reads a count. -/
def countForm : Reader Nat := do
  match ← peekToken with
  | some c =>
    if c = '-' || c.isDigit then
      match countOf .count maxCount (← number) with
      | .ok n => return n
      | .error problem => reject problem
    else mismatch .count
  | none => mismatch .count

/-- Reads the value of a keyword into a schema. `read` reads a value in a wanted form. -/
def keyword (read : (form : Form) → (closing : Cursor → Nat) → Reader form.Carrier)
    (closing : Cursor → Nat) (s : Schema) (k : Keyword) : Reader Schema := do
  if k.nullable && (← peekToken) == some 'n' then
    eat
    letters ['u', 'l', 'l']
    return s
  else return s.put k (← read k.form closing)

/-- Reads the members of an object into a schema; `seen` are the keywords met so far. -/
def schemaMembers (read : (form : Form) → (closing : Cursor → Nat) → Reader form.Carrier) :
    (steps : Steps) → (first : Bool) → (seen : List Keyword) → Schema → Reader Schema
  | [], _, _, _ => failHere .endInObject
  | _ :: steps, first, seen, s => do
    match ← nextKey first with
    | none => return s
    | some name =>
      match Keyword.ofName? name with
      | none =>
        colon
        within (.key name) skipValue
        schemaMembers read steps false seen s
      | some k =>
        if k ∈ seen then rejectInside Cursor.afterObject (.duplicate k.name)
        else
          colon
          let s ← within (.key name) (keyword read Cursor.afterObject s k)
          schemaMembers read steps false (k :: seen) s

/-- Reads the items of a list, which stand for the given keywords, into a schema. -/
def schemaPositions (read : (form : Form) → (closing : Cursor → Nat) → Reader form.Carrier) :
    List Keyword → (index : Nat) → Schema → Reader Schema
  | [], _, s => return s
  | k :: keywords, index, s => do
    if ← hasNextItem (index == 0) then
      let s ← within (.index index) (keyword read Cursor.afterList s k)
      schemaPositions read keywords (index + 1) s
    else return s

/-- Reads a schema whose opening bracket is the next character. -/
def schemaBody (read : (form : Form) → (closing : Cursor → Nat) → Reader form.Carrier)
    (opening : Char) : Reader Schema := do
  eat
  if opening = '{' then
    let s ← schemaMembers read (← stepsLeft) true [] {}
    closeObject
    return s
  else
    let s ← schemaPositions read Keyword.all 0 {}
    closeList
    return s

/-- Reads a value in a wanted form, with at most `depth` open brackets. -/
def form (depth : Nat) : (wanted : Form) → (closing : Cursor → Nat) → Reader wanted.Carrier
  | .text, _ => textForm
  | .count, _ => countForm
  | .value, _ => return (← value depth).collapsed
  | .types, closing => do
    match TypeSet.ofValue? (← value depth) with
    | some types => return types
    | none => rejectInside closing (.noForm .types)
  | .additional, closing => do
    match (← value depth).inForm .additional with
    | .ok additional => return additional
    | .error _ => rejectInside closing (.noForm .additionalProperties)
  | .schema, _ => do
    match ← peekToken with
    | some '{' =>
      match depth with
      | 0 => failAhead .tooDeep
      | depth + 1 => schemaBody (form depth) '{'
    | some '[' =>
      match depth with
      | 0 => failAhead .tooDeep
      | depth + 1 => schemaBody (form depth) '['
    | _ => mismatch .schema
  | .listOf item, _ => do
    match ← peekToken with
    | some '[' =>
      match depth with
      | 0 => failAhead .tooDeep
      | depth + 1 => list (form depth item Cursor.afterList)
    | _ => mismatch .list
  | .mapOf entry, _ => do
    match ← peekToken with
    | some '{' =>
      match depth with
      | 0 => failAhead .tooDeep
      | depth + 1 => return Assoc.ofList (← object (form depth entry Cursor.afterObject))
    | _ => mismatch .map

theorem form_text (depth : Nat) (closing : Cursor → Nat) : form depth .text closing = textForm := by
  unfold form
  rfl

theorem form_count (depth : Nat) (closing : Cursor → Nat) :
    form depth .count closing = countForm := by
  unfold form
  rfl

/-- The beginning of a text, in a wanted form. -/
def beginning (wanted : Form) (text : String) : Except ReadError wanted.Carrier :=
  match (form depthLimit wanted Cursor.offset).run (Cursor.start text) with
  | .ok (result, _) => .ok result
  | .error fault => .error (fault.toReadError text)

end Reader

end Json

/-- The schema that a text begins with. -/
def Schema.ofText (text : String) : Except Json.ReadError Schema :=
  Json.Reader.beginning .schema text

/-- The named schemas that a text begins with. -/
def definitionsOfText (text : String) : Except Json.ReadError (Assoc Schema) :=
  Json.Reader.beginning (.mapOf .schema) text

end SchemaGrammar
