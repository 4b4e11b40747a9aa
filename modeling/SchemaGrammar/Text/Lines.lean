/-!
# Lines of text

A line ends at a line feed, and a carriage return right before the line feed belongs to the ending.
What follows the last line feed is a line of its own unless it is empty; a carriage return at its
end is part of it, because no line feed follows.
-/

namespace SchemaGrammar

namespace Text

/-- Whether `c` is white space: the Unicode property of that name. -/
def isBlank (c : Char) : Bool :=
  let n := c.toNat
  (9 ≤ n && n ≤ 13) || n == 0x20 || n == 0x85 || n == 0xA0 || n == 0x1680 ||
    (0x2000 ≤ n && n ≤ 0x200A) || n == 0x2028 || n == 0x2029 || n == 0x202F || n == 0x205F ||
    n == 0x3000

/-- Whether nothing but white space stands in a text. -/
def isBlankText (text : String) : Bool := text.toList.all isBlank

/-- A line from its characters, the last one first, without the carriage return of its ending. -/
def endedLine : List Char → List Char
  | '\r' :: before => before.reverse
  | line => line.reverse

/-- The lines of `chars`, where `line` holds the characters read since the last line feed, the last
one first. -/
def linesFrom (line : List Char) : List Char → List (List Char)
  | [] => if line.isEmpty then [] else [line.reverse]
  | '\n' :: rest => endedLine line :: linesFrom [] rest
  | c :: rest => linesFrom (c :: line) rest

/-- The lines of a text. -/
def lines (text : String) : List String :=
  (linesFrom [] text.toList).map String.ofList

example : lines "a\r\nb\n\nc\r" = ["a", "b", "", "c\r"] := by decide +kernel

example : lines "a\n" = ["a"] := by decide +kernel

end Text

end SchemaGrammar
