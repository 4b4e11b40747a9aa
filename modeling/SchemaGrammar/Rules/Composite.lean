import SchemaGrammar.Rules.Table

/-!
# Lists, objects and free-form values

The blanks after an opening bracket and between entries are those of the layout one level further
in; the blanks before the closing bracket are those of the container itself. Objects list their
members in declared order; whichever optional members are present, separators stand only between
two members.

## Main definitions

* `Grammar.arrayElements`, `Grammar.objectMembers`: what stands between the brackets.
* `Rules.array`, `Rules.object`: lists and objects in a layout.
* `Rules.anyJson`: the rule for any JSON value.
-/

namespace SchemaGrammar

namespace Grammar

/-- One member of an object. -/
structure Member where
  entry : Body
  required : Bool
deriving Repr

/-- A member's name, the colon and the value. -/
def entry (key value : Body) : Body := sequence [key, .literal ":", optionalBlank, value]

/-- The entries between two brackets; without any, only the outer blanks remain. -/
def enclose (opening closing : String) (inner body outer : Body) : Body :=
  if body.isBlank then sequence [.literal opening, outer, .literal closing]
  else sequence [.literal opening, inner, body, outer, .literal closing]

/-- The given bodies with `separator` between them. -/
def separated (separator : Body) : List Body → List Body
  | [] => []
  | [b] => [b]
  | b :: rest => b :: separator :: separated separator rest

/-- The elements of a list: the leading ones, then `item` so often that the whole has between
`least` and `most` elements. -/
def arrayElements (separator : Body) (leading : List Body) (item : Body) (least : Nat)
    (most : Option Nat) : Body :=
  if leading.isEmpty then repetition item (some separator) least most
  else
    let rest := repetition (sequence [separator, item]) none (least - leading.length)
      (most.map (· - leading.length))
    sequence [chain (separated separator leading), rest]

/-- A member that may follow another one. -/
def optionalAfter (separator entry : Body) : Body := (chain [separator, entry]).group .optional

/-- The members after the first one that is present: required ones must follow, others may. -/
def laterMembers (separator : Body) (members : List Member) : List Body :=
  members.map fun m =>
    if m.required then chain [separator, m.entry] else optionalAfter separator m.entry

/-- The alternatives for objects without required members, by the first member that is present. -/
def startingAt (separator : Body) (tail : List Body) : List Member → List Body
  | [] => []
  | m :: later =>
    sequence (m.entry :: later.map (optionalAfter separator ·.entry) ++ tail) ::
      startingAt separator tail later

/-- The members of an object in declared order, then any number of additional ones. -/
def objectMembers (members : List Member) (additional : Option Body) (separator : Body) : Body :=
  let tail := (additional.map fun extra => (chain [separator, extra]).group .many).toList
  match members.span (!·.required) with
  | (optional, first :: later) =>
    sequence <|
      optional.map (fun m => (chain [m.entry, separator]).group .optional) ++
        first.entry :: laterMembers separator later ++ tail
  | (optional, []) =>
    let starts := startingAt separator tail optional ++
      (additional.map fun extra => chain (extra :: tail)).toList
    if starts.isEmpty then .empty else (choice starts).group .optional

end Grammar

open Grammar

namespace Rules

/-- The blanks inside and at the end of a container, and the separator of its entries. -/
def spacing (layout : Layout) : StateM Rules (Body × Body × Body) := do
  let inner ← terminal (.whitespace layout.descend)
  let outer ← terminal (.whitespace layout)
  return (inner, outer, sequence [.literal ",", inner])

/-- A list. -/
def array (layout : Layout) (leading : List Body) (item : Body) (least : Nat)
    (most : Option Nat) : StateM Rules Body := do
  let (inner, outer, separator) ← spacing layout
  return enclose "[" "]" inner (arrayElements separator leading item least most) outer

/-- An object. -/
def object (layout : Layout) (members : List Member) (additional : Option Body) :
    StateM Rules Body := do
  let (inner, outer, separator) ← spacing layout
  return enclose "\x7b" "\x7d" inner (objectMembers members additional separator) outer

/-- The body for any JSON value whose nested values are matched by `nested`. -/
def anyJsonBody (layout : Layout) (nested : Body) : StateM Rules Body := do
  let string ← terminal (.string {})
  let number ← terminal (.number true)
  let boolean ← terminal .boolean
  let null ← terminal .null
  let list ← intern (← array layout [] nested 0 none) none
  let map ← intern (← object layout [] (some (entry string nested))) none
  return (choice [string, number, boolean, null, list, map]).group .once

/-- The rule for any JSON value on a single line; it nests itself. -/
def flatJson (layout : Layout) : StateM Rules Body :=
  reserved layout.flat.anyJsonRule (anyJsonBody layout.flat (.rule layout.flat.anyJsonRule))

/-- The rule for any JSON value. Values nested in it stay on one line. -/
def anyJson (layout : Layout) : StateM Rules Body :=
  if layout.newLines then
    reserved layout.anyJsonRule do anyJsonBody layout (← flatJson layout)
  else flatJson layout

end Rules

end SchemaGrammar
