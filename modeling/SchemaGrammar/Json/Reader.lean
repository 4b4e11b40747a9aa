import SchemaGrammar.Json.Scanner

/-!
# Reading JSON text

Values are read in one pass. Lists and objects are read by loops that are told how to read one
entry, so the same loops serve values of any form. A text may nest its brackets only to a given
depth.

## Main definitions

* `Reader.elements`, `Reader.members`: the loops over the entries of a bracket.
* `Reader.value`: any value, with repeated members kept.
* `parseDocument`: the value of a text that is one value and nothing else.
-/

namespace SchemaGrammar

namespace Json

/-- How many brackets may be open at once in a text. -/
def depthLimit : Nat := 127

namespace Reader

variable {α : Type}

/-! ## Lists -/

/-- Whether another item follows; the separator before it is skipped. -/
def hasNextItem (first : Bool) : Reader Bool := do
  match ← peekToken with
  | none => failAhead .endInList
  | some ']' => return false
  | some c =>
    if first then return true
    else if c = ',' then
      eat
      match ← peekToken with
      | none => failAhead .endInValue
      | some ']' => failAhead .trailingComma
      | some _ => return true
    else failAhead .expectedListEnd

/-- Reads the bracket that ends a list. -/
def closeList : Reader Unit := do
  match ← peekToken with
  | none => failAhead .endInList
  | some ']' => eat
  | some ',' =>
    eat
    match ← peekToken with
    | some ']' => failAhead .trailingComma
    | _ => failAhead .trailingCharacters
  | some _ => failAhead .trailingCharacters

/-- The items that are left of a list, up to its closing bracket. -/
def elements (read : Reader α) :
    (steps : Steps) → (index : Nat) → (done : List α) → Reader (List α)
  | [], _, _ => failHere .endInList
  | _ :: steps, index, done => do
    if ← hasNextItem (index == 0) then
      let item ← within (.index index) read
      elements read steps (index + 1) (item :: done)
    else return done.reverse

/-- Reads a list whose opening bracket is the next character. -/
def list (read : Reader α) : Reader (List α) := do
  eat
  let items ← elements read (← stepsLeft) 0 []
  closeList
  return items

/-! ## Objects -/

/-- The name of the next member, if there is one; the separator before it is skipped. -/
def nextKey (first : Bool) : Reader (Option String) := within .unreadable do
  match ← peekToken with
  | none => failAhead .endInObject
  | some '}' => return none
  | some c =>
    if first then
      if c = '"' then return some (← string) else failAhead .keyNotString
    else if c = ',' then
      eat
      match ← peekToken with
      | none => failAhead .endInValue
      | some '"' => return some (← string)
      | some '}' => failAhead .trailingComma
      | some _ => failAhead .keyNotString
    else failAhead .expectedObjectEnd

/-- Reads the colon after a member's name. -/
def colon : Reader Unit := do
  match ← peekToken with
  | none => failAhead .endInObject
  | some ':' => eat
  | some _ => failAhead .expectedColon

/-- Reads the bracket that ends an object. -/
def closeObject : Reader Unit := do
  match ← peekToken with
  | none => failAhead .endInObject
  | some '}' => eat
  | some ',' => failAhead .trailingComma
  | some _ => failAhead .trailingCharacters

/-- The members that are left of an object, up to its closing bracket. -/
def members (read : Reader α) :
    (steps : Steps) → (first : Bool) → (done : List (String × α)) → Reader (List (String × α))
  | [], _, _ => failHere .endInObject
  | _ :: steps, first, done => do
    match ← nextKey first with
    | none => return done.reverse
    | some name =>
      colon
      let entry ← within (.key name) read
      members read steps false ((name, entry) :: done)

/-- Reads an object whose opening bracket is the next character. -/
def object (read : Reader α) : Reader (List (String × α)) := do
  eat
  let entries ← members read (← stepsLeft) true []
  closeObject
  return entries

/-! ## Values -/

/-- Reads any value. Repeated members are kept as they stand. -/
def value (depth : Nat) : Reader Value := do
  match ← peekToken with
  | none => failAhead .endInValue
  | some 'n' => eat; letters ['u', 'l', 'l']; return .null
  | some 't' => eat; letters ['r', 'u', 'e']; return .bool true
  | some 'f' => eat; letters ['a', 'l', 's', 'e']; return .bool false
  | some '"' => return .string (← string)
  | some '[' =>
    match depth with
    | 0 => failAhead .tooDeep
    | depth + 1 => return .array (← list (value depth))
  | some '{' =>
    match depth with
    | 0 => failAhead .tooDeep
    | depth + 1 => return .object (← object (value depth))
  | some c =>
    if c = '-' || c.isDigit then return .number (← number)
    else failAhead .expectedValue

/-- Reads one value and makes sure that only blanks follow it. -/
def document (depth : Nat) : Reader Value := do
  let result ← value depth
  match ← peekToken with
  | none => return result.collapsed
  | some _ => failAhead .trailingCharacters

end Reader

/-- The value that a text is, if it opens at most `depth` brackets at once. -/
def parseNested (depth : Nat) (text : String) : Except ReadError Value :=
  match (Reader.document depth).run (Cursor.start text) with
  | .ok (value, _) => .ok value
  | .error fault => .error (fault.toReadError text)

/-- The value that a text is. -/
def parseDocument (text : String) : Except ReadError Value := parseNested depthLimit text

end Json

end SchemaGrammar
