import SchemaGrammar.Json.Printer
import SchemaGrammar.Text.Quoted

/-!
# What can be wrong with a document

A document that is read may not be JSON text at all, or it may hold a value of another form than
the one wanted at that place. This module names these problems, the places in a document, and the
wording of both.

## Main definitions

* `Malformed`: how a text fails to be JSON.
* `Problem`: what is wrong, with its message.
* `Step`, `placeText`: a place in a document and its text.
* `ReadError`: a problem, its place and, for texts, its position.
-/

namespace SchemaGrammar

namespace Json

/-- How a text fails to be JSON. -/
inductive Malformed where
  | endInValue | endInString | endInList | endInObject
  | expectedValue | expectedIdent | expectedColon | expectedListEnd | expectedObjectEnd
  | keyNotString | trailingComma | trailingCharacters
  | invalidNumber | numberOutOfRange
  | invalidEscape | loneSurrogate | unfinishedPair | controlCharacter
  | tooDeep
deriving Repr, DecidableEq

/-- The wording of a malformation. -/
def Malformed.message : Malformed → String
  | .endInValue => "EOF while parsing a value"
  | .endInString => "EOF while parsing a string"
  | .endInList => "EOF while parsing a list"
  | .endInObject => "EOF while parsing an object"
  | .expectedValue => "expected value"
  | .expectedIdent => "expected ident"
  | .expectedColon => "expected `:`"
  | .expectedListEnd => "expected `,` or `]`"
  | .expectedObjectEnd => "expected `,` or `\x7d`"
  | .keyNotString => "key must be a string"
  | .trailingComma => "trailing comma"
  | .trailingCharacters => "trailing characters"
  | .invalidNumber => "invalid number"
  | .numberOutOfRange => "number out of range"
  | .invalidEscape => "invalid escape"
  | .loneSurrogate => "lone leading surrogate in hex escape"
  | .unfinishedPair => "unexpected end of hex escape"
  | .controlCharacter => "control character (\\u0000-\\u001F) found while parsing a string"
  | .tooDeep => "recursion limit exceeded"

/-- What was found where a value of another form was wanted. -/
inductive Found where
  | null
  | boolean (b : Bool)
  | number (n : Number)
  | string (s : String)
  | list
  | map
deriving Repr

/-- The wording of what was found. -/
def Found.text : Found → String
  | .null => "null"
  | .boolean b => "boolean `" ++ (if b then "true" else "false") ++ "`"
  | .number (.integer n) => "integer `" ++ toString n ++ "`"
  | .number (.real x) => "floating point `" ++ realText x ++ "`"
  | .string s => "string " ++ Text.quoted s
  | .list => "sequence"
  | .map => "map"

/-- What a value is, as a mismatch reports it. -/
def Value.found : Value → Found
  | .null => .null
  | .bool b => .boolean b
  | .number n => .number n
  | .string s => .string s
  | .array _ => .list
  | .object _ => .map

/-- The form that was wanted. -/
inductive Wanted where
  | schema | options | map | list | string | boolean | count | size
deriving Repr, DecidableEq

/-- The wording of what was wanted. -/
def Wanted.text : Wanted → String
  | .schema => "struct JsonSchema"
  | .options => "struct GrammarOptions"
  | .map => "a map"
  | .list => "a sequence"
  | .string => "a string"
  | .boolean => "a boolean"
  | .count => "u32"
  | .size => "usize"

/-- The keywords whose value has one of several forms. -/
inductive Choice where
  | types | additionalProperties
deriving Repr, DecidableEq

/-- The name of such a choice in messages. -/
def Choice.text : Choice → String
  | .types => "TypeSet"
  | .additionalProperties => "AdditionalProperties"

/-- What is wrong at some place of a document. -/
inductive Problem where
  | malformed (what : Malformed)
  | mismatch (found : Found) (wanted : Wanted)
  | outOfRange (n : Int) (wanted : Wanted)
  | duplicate (name : String)
  | noForm (choice : Choice)
  | tooLong (length : Nat)
deriving Repr

/-- The wording of a problem. -/
def Problem.message : Problem → String
  | .malformed what => what.message
  | .mismatch found wanted => "invalid type: " ++ found.text ++ ", expected " ++ wanted.text
  | .outOfRange n wanted =>
    "invalid value: integer `" ++ toString n ++ "`, expected " ++ wanted.text
  | .duplicate name => "duplicate field `" ++ name ++ "`"
  | .noForm choice => "data did not match any variant of untagged enum " ++ choice.text
  | .tooLong length =>
    "invalid length " ++ toString length ++ ", expected fewer elements in array"

/-- One step into a document: to a member, to an item, or to a member whose name could not be
read. -/
inductive Step where
  | key (name : String)
  | index (i : Nat)
  | unreadable
deriving Repr, DecidableEq

/-- The rest of a place's text after its first step. -/
def laterStepsText : List Step → String
  | [] => ""
  | .key name :: steps => "." ++ name ++ laterStepsText steps
  | .index i :: steps => "[" ++ toString i ++ "]" ++ laterStepsText steps
  | .unreadable :: steps => ".?" ++ laterStepsText steps

/-- The text of a place: names separated by dots, positions in brackets; `.` is the document
itself. -/
def placeText : List Step → String
  | [] => "."
  | .key name :: steps => name ++ laterStepsText steps
  | .index i :: steps => "[" ++ toString i ++ "]" ++ laterStepsText steps
  | .unreadable :: steps => "?" ++ laterStepsText steps

/-- A position in a text: the line, counted from one, and the bytes before it on that line. -/
structure Position where
  line : Nat
  column : Nat
deriving Repr, DecidableEq

/-- A problem met while reading a document. -/
structure ReadError where
  place : List Step
  problem : Problem
  position : Option Position
deriving Repr

/-- The problem, followed by its position if there is one. -/
def ReadError.message (e : ReadError) : String :=
  match e.position with
  | none => e.problem.message
  | some p =>
    e.problem.message ++ " at line " ++ toString p.line ++ " column " ++ toString p.column

end Json

end SchemaGrammar
