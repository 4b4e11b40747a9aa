import SchemaGrammar.Layout
import SchemaGrammar.Schema.OfValue

/-!
# Options of one compilation

Options are read from an object, whose unknown members are ignored, or from a list that gives them
by position. What is missing takes its default.
-/

namespace SchemaGrammar

open Json (Value Problem ReadError)

/-- The options of one compilation: whether documents may break lines, the spaces per level of
nesting, and how many newlines may follow the document. -/
structure Options where
  allowNewLines : Bool := true
  padSpaces : Nat := 4
  trailingNewLines : Nat := 4
deriving Repr, DecidableEq, Inhabited

/-- The largest number of newlines that can be asked for. -/
def maxSize : Nat := UInt64.size - 1

namespace Options

/-- The options, by position. -/
inductive Field where
  | allowNewLines | padSpaces | trailingNewLines
deriving Repr, DecidableEq

/-- All options, by position. -/
def Field.all : List Field := [.allowNewLines, .padSpaces, .trailingNewLines]

/-- The spelling of an option. -/
def Field.name : Field → String
  | .allowNewLines => "allowNewLines"
  | .padSpaces => "scopePadSpaces"
  | .trailingNewLines => "trailingNewLines"

/-- Reads a number up to `most`. -/
def number (wanted : Json.Wanted) (most : Nat) : Value → Except ReadError Nat
  | .number n => (countOf wanted most n).mapError Problem.here
  | value => .error (Problem.mismatch value.found wanted).here

/-- The options with one of them set. -/
def put (o : Options) : Field → Value → Except ReadError Options
  | .allowNewLines, .bool yes => .ok { o with allowNewLines := yes }
  | .allowNewLines, value => .error (Problem.mismatch value.found .boolean).here
  | .padSpaces, value => (number .count maxCount value).map fun n => { o with padSpaces := n }
  | .trailingNewLines, value =>
    (number .size maxSize value).map fun n => { o with trailingNewLines := n }

/-- Reads options from the members of an object; `seen` are the options met so far. -/
def ofMembers : List (String × Value) → (seen : List Field) → Options → Except ReadError Options
  | [], _, o => .ok o
  | (name, value) :: members, seen, o =>
    match Field.all.find? (·.name == name) with
    | none => ofMembers members seen o
    | some field =>
      if field ∈ seen then .error (Problem.duplicate field.name).here
      else do
        let o ← (o.put field value).mapError (·.under (.key name))
        ofMembers members (field :: seen) o

/-- Reads options from the items of a list of `length` items. -/
def ofPositions : List Value → (length index : Nat) → List Field → Options →
    Except ReadError Options
  | [], _, _, _, o => .ok o
  | _ :: _, length, _, [], _ => .error (Problem.tooLong length).here
  | value :: values, length, index, field :: fields, o => do
    let o ← (o.put field value).mapError (·.under (.index index))
    ofPositions values length (index + 1) fields o

/-- The options that a value describes. -/
def ofValue : Value → Except ReadError Options
  | .object members => ofMembers members [] {}
  | .array items => ofPositions items items.length 0 Field.all {}
  | value => .error (Problem.mismatch value.found .options).here

/-- The options written back as a value. -/
def toValue (o : Options) : Value :=
  .object
    [(Field.allowNewLines.name, .bool o.allowNewLines),
     (Field.padSpaces.name, .number (.integer o.padSpaces)),
     (Field.trailingNewLines.name, .number (.integer o.trailingNewLines))]

/-- The layout of the document itself. -/
def layout (o : Options) : Layout := ⟨o.allowNewLines, o.padSpaces, 0⟩

end Options

end SchemaGrammar
