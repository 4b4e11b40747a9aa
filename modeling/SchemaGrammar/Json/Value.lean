import SchemaGrammar.Assoc

/-!
# JSON values

Numbers are integers or binary floating-point numbers; the two are never equal. Objects are lists
of members in the order they were written, and compare without regard to that order.

## Main definitions

* `Number`, `Value`: the data.
* `Value.same`: equality of values.
* `Value.collapsed`: the value in which every repeated member name keeps its first place and takes
  its last value.
-/

namespace SchemaGrammar

namespace Json

/-- A number as it was read: an integer of at most 64 bits, or a floating-point number. -/
inductive Number where
  | integer (n : Int)
  | real (x : Float)
deriving Repr, Inhabited

/-- Integers equal integers and floating-point numbers equal floating-point numbers; the two zeros
of the latter are equal. -/
def Number.same : Number → Number → Bool
  | .integer m, .integer n => m == n
  | .real x, .real y => x == y
  | _, _ => false

/-- A JSON value. -/
inductive Value where
  | null
  | bool (b : Bool)
  | number (n : Number)
  | string (s : String)
  | array (items : List Value)
  | object (members : List (String × Value))
deriving Repr, Inhabited

/-- What a value is, as messages name it. -/
inductive Kind where
  | null | boolean | number | string | array | object
deriving Repr, DecidableEq

/-- The name of a kind. -/
def Kind.name : Kind → String
  | .null => "null"
  | .boolean => "boolean"
  | .number => "number"
  | .string => "string"
  | .array => "array"
  | .object => "object"

namespace Value

/-- The kind of a value. -/
def kind : Value → Kind
  | .null => .null
  | .bool _ => .boolean
  | .number _ => .number
  | .string _ => .string
  | .array _ => .array
  | .object _ => .object

mutual

/-- Equality of values: arrays item by item, objects by their members in any order. -/
def same : Value → Value → Bool
  | .null, .null => true
  | .bool a, .bool b => a == b
  | .number m, .number n => m.same n
  | .string s, .string t => s == t
  | .array xs, .array ys => sameItems xs ys
  | .object xs, .object ys => xs.length == ys.length && sameMembers xs ys
  | _, _ => false

/-- Whether two lists of items are equal, item by item. -/
def sameItems : List Value → List Value → Bool
  | [], [] => true
  | x :: xs, y :: ys => same x y && sameItems xs ys
  | _, _ => false

/-- Whether every member of the first list has an equal one of the same name in the second. -/
def sameMembers : List (String × Value) → List (String × Value) → Bool
  | [], _ => true
  | (key, x) :: xs, ys =>
    (match Assoc.get? key ys with
      | some y => same x y
      | none => false) && sameMembers xs ys

end

mutual

/-- The value in which every repeated member name keeps its first place and takes its last value. -/
def collapsed : Value → Value
  | .array items => .array (collapsedItems items)
  | .object members => .object (Assoc.ofList (collapsedMembers members))
  | value => value

/-- Every item of a list, collapsed. -/
def collapsedItems : List Value → List Value
  | [] => []
  | item :: items => collapsed item :: collapsedItems items

/-- Every member of a list, collapsed. -/
def collapsedMembers : List (String × Value) → List (String × Value)
  | [] => []
  | (key, value) :: members => (key, collapsed value) :: collapsedMembers members

end

mutual

/-- How many brackets are open at once in a value. -/
def depth : Value → Nat
  | .array items => itemsDepth items + 1
  | .object members => membersDepth members + 1
  | _ => 0

/-- The depth of the deepest item. -/
def itemsDepth : List Value → Nat
  | [] => 0
  | item :: items => max (depth item) (itemsDepth items)

/-- The depth of the deepest member. -/
def membersDepth : List (String × Value) → Nat
  | [] => 0
  | (_, value) :: members => max (depth value) (membersDepth members)

end

/-- The member of an object under `key`; other values have no members. -/
def member? (key : String) : Value → Option Value
  | .object members => Assoc.get? key members
  | _ => none

end Value

end Json

end SchemaGrammar
