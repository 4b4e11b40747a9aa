import SchemaGrammar.Schema.Basic
import SchemaGrammar.Text.DecimalDigit

/-!
# Date and time strings

Which strings are dates and times. A format is a pattern over single characters; where a digit may
be any, the decimal digits of all scripts count.

## Main definitions

* `Pattern`, `Pattern.rests`: patterns, and what they leave of a text.
* `TextFormat.accepts`: the strings of a format.
-/

namespace SchemaGrammar

/-- A pattern over characters. -/
inductive Pattern where
  | char (allowed : Char → Bool)
  | follow (first second : Pattern)
  | either (left right : Pattern)
  | optional (inner : Pattern)

namespace Pattern

/-- What is left of a text after each of the ways in which the pattern matches its beginning. -/
def rests : Pattern → List Char → List (List Char)
  | .char _, [] => []
  | .char allowed, c :: rest => if allowed c then [rest] else []
  | .follow first second, text => (first.rests text).flatMap second.rests
  | .either left right, text => left.rests text ++ right.rests text
  | .optional inner, text => inner.rests text ++ [text]

/-- Whether the pattern matches a whole text. -/
def accepts (p : Pattern) (text : String) : Bool := (p.rests text.toList).any List.isEmpty

/-- Several patterns, one after the other. -/
def chain (first : Pattern) (others : List Pattern) : Pattern := others.foldl .follow first

/-- One given character. -/
def just (c : Char) : Pattern := .char (· == c)

/-- A character between two others. -/
def between (first last : Char) : Pattern := .char fun c => first ≤ c && c ≤ last

/-- A decimal digit of any script. -/
def digit : Pattern := .char Text.isDecimalDigit

/-- Year, month and day. -/
def date : Pattern :=
  chain digit
    [digit, digit, digit, just '-',
     .either (chain (just '0') [between '1' '9']) (chain (just '1') [between '0' '2']), just '-',
     .either (chain (just '0') [between '1' '9'])
       (.either (chain (between '1' '2') [digit]) (chain (just '3') [between '0' '1']))]

/-- The hours of a day. -/
def hours : Pattern :=
  .either (chain (between '0' '1') [digit]) (chain (just '2') [between '0' '3'])

/-- The minutes of an hour, or the seconds of a minute. -/
def minutes : Pattern := chain (between '0' '5') [digit]

/-- A time of day with its time zone. -/
def time : Pattern :=
  chain hours
    [just ':', minutes, just ':', minutes, .optional (chain (just '.') [digit, digit, digit]),
     .either (just 'Z') (chain (.either (just '+') (just '-')) [hours, just ':', minutes])]

end Pattern

/-- The pattern of a format. -/
def TextFormat.pattern : TextFormat → Pattern
  | .date => .date
  | .time => .time
  | .dateTime => Pattern.chain .date [Pattern.just 'T', .time]

/-- Whether a string has a format. -/
def TextFormat.accepts (f : TextFormat) (text : String) : Bool := f.pattern.accepts text

end SchemaGrammar
