import SchemaGrammar.Grammar.Combinators
import SchemaGrammar.Terminal.Basic

/-!
# Bodies of terminals

What each terminal matches, as a grammar body: the tokens of JSON, the date and time formats, and
the blanks that a layout allows.

## Main definitions

* `Grammar.dateBody`, `Grammar.timeBody`: the date and time formats.
* `Layout.body`: the blanks between two tokens.
* `Terminal.body`: the body of a terminal.
-/

namespace SchemaGrammar

namespace Grammar

/-! ## Character classes -/

/-- The characters of `members`. -/
def oneOf (members : String) : CharClass := { entries := members.toList.map .single }

/-- The characters from `first` to `last`. -/
def span (first last : Char) : CharClass := { entries := [.range first last] }

/-- The decimal digits. -/
def digit : CharClass := span '0' '9'

/-- One character of a class. -/
def one (set : CharClass) : Item := .chars set .once

/-- A literal item. -/
def lit (text : String) : Item := .literal text .once

/-- A sequence of items as a body. -/
def items (list : List Item) : Body := ⟨[list]⟩

/-- A choice between sequences of items, in brackets. -/
def bracketed (choices : List (List Item)) : Body := Body.group ⟨choices⟩ .once

/-- At most one blank. -/
def optionalBlank : Body := .item (.chars (oneOf " ") .optional)

/-- At most one line break. -/
def optionalNewLine : Body := .item (.chars (oneOf "\n") .optional)

/-! ## Numbers -/

/-- An integer without leading zeros. -/
def integerItem : Item :=
  .group true
    [[.literal "-" .optional,
      .group true [[one digit], [one (span '1' '9'), .chars digit .many]] .once]]
    .once

/-- A fraction and an exponent, both optional. -/
def fractionItems : List Item :=
  [.group true [[lit ".", .chars digit .some]] .optional,
   .group true [[one (oneOf "eE"), .chars (oneOf "-+") .optional, .chars digit .some]] .optional]

/-! ## Strings -/

/-- One character between the quotes of a string: any but the quote, the backslash, the delete
character and controls, or one of the escapes. -/
def stringCharBody : Body :=
  ⟨[[one { negated := true,
           entries := [.single '"', .single '\\', .single '\x7f', .range '\x00' '\x1f'] }],
    [lit "\\", one (oneOf "\"\\/bfnrt")],
    [lit "\\u",
      .chars { entries := [.range '0' '9', .range 'a' 'f', .range 'A' 'F'] } (.exactly 4)]]⟩

/-- The quote around a string. -/
def quote : Body := .literal "\""

/-- The body, matched as often as `count` says; a single item needs no brackets. -/
def Body.counted (b : Body) (count : Count) : Body :=
  match b.choices with
  | [[.rule name .once]] => .item (.rule name count)
  | _ => b.group count

/-- A string whose characters are matched by `charRule`. -/
def stringBody (bounds : LengthBounds) (charRule : Body) : Body :=
  if bounds = {} then sequence [quote, charRule.counted .many, quote]
  else if bounds.most = some 0 then .literal "\"\""
  else sequence [quote, repetition charRule none bounds.least bounds.most, quote]

/-- The literal that matches the JSON text of a string. -/
def jsonLiteral (text : String) : Body := .literal (Json.stringText text)

/-! ## Dates and times -/

/-- A date: year, month and day. -/
def dateBody : Body :=
  sequence
    [.item (.chars digit (.exactly 4)),
     .literal "-",
     bracketed [[lit "0", one (span '1' '9')], [lit "1", one (oneOf "012")]],
     .literal "-",
     bracketed
       [[lit "0", one (span '1' '9')], [one (oneOf "12"), one digit], [lit "3", one (oneOf "01")]]]

/-- The hours of a day. -/
def hoursBody : Body :=
  bracketed [[one (oneOf "01"), one digit], [lit "2", one (span '0' '3')]]

/-- The minutes of an hour, or the seconds of a minute. -/
def minutesBody : Body := items [one (span '0' '5'), one digit]

/-- The distance of a time zone from the prime meridian. -/
def offsetBody : Body :=
  sequence [bracketed [[lit "+"], [lit "-"]], hoursBody, .literal ":", minutesBody]

/-- A time of day with its time zone. -/
def timeBody : Body :=
  sequence
    [hoursBody, .literal ":", minutesBody, .literal ":", minutesBody,
     (items [lit ".", .chars digit (.exactly 3)]).group .optional,
     (choice [.literal "Z", offsetBody]).group .once]

/-- A string in one of the formats. -/
def formatBody : TextFormat → Body
  | .date => sequence [quote, dateBody, quote]
  | .time => sequence [quote, timeBody, quote]
  | .dateTime => sequence [quote, sequence [dateBody, .literal "T", timeBody], quote]

end Grammar

open Grammar

/-! ## Blanks -/

/-- The indentation at a depth: spaces or tabs. -/
def Layout.indent (l : Layout) : Body :=
  if l.depth = 0 then .empty
  else alternation [repeatedLiteral " " l.padding, repeatedLiteral "\t" l.depth]

/-- The blanks between two tokens: a line break and the indentation, or at most one space. Without
line breaks only the space remains. -/
def Layout.body (l : Layout) : Body :=
  if l.newLines then
    choice [sequence [.item (one (oneOf "\n")), l.indent], optionalBlank]
  else optionalBlank

/-- What a terminal matches; `charRule` is the body for one character of a string. -/
def Terminal.body (charRule : Body) : Terminal → Body
  | .null => .literal "null"
  | .booleanLiteral b => .literal (if b then "true" else "false")
  | .boolean => choice [.literal "true", .literal "false"]
  | .numberLiteral n => .literal n.text
  | .number false => items [integerItem]
  | .number true => items (integerItem :: fractionItems)
  | .stringLiteral text => jsonLiteral text
  | .string bounds => stringBody bounds charRule
  | .format f => formatBody f
  | .verbatim text => .literal text
  | .whitespace layout => layout.body
  | .stringChar => stringCharBody

end SchemaGrammar
