import SchemaGrammar.Decimal.Scaling
import SchemaGrammar.Json.Cursor

/-!
# Scalars in a text

Strings, numbers and the three words, read into values. A string may hold any character but
controls and its own delimiters, and escapes; a code unit above the basic plane is written as a
surrogate pair. A number without fraction and exponent is an integer while it fits into 64 bits;
everything else, `-0` included, is a floating-point number.
-/

namespace SchemaGrammar

namespace Json

/-! ## Strings -/

/-- The value of a digit of base sixteen. -/
def hexValue? (c : Char) : Option Nat :=
  if c.isDigit then some (c.toNat - '0'.toNat)
  else if 'a' ≤ c && c ≤ 'f' then some (c.toNat - 'a'.toNat + 10)
  else if 'A' ≤ c && c ≤ 'F' then some (c.toNat - 'A'.toNat + 10)
  else none

/-- The code unit written by four digits of base sixteen. -/
def codeUnit? (a b c d : Char) : Option Nat := do
  let a ← hexValue? a
  let b ← hexValue? b
  let c ← hexValue? c
  let d ← hexValue? d
  return ((a * 16 + b) * 16 + c) * 16 + d

/-- Whether a code unit opens a surrogate pair. -/
def isLeading (unit : Nat) : Bool := 0xD800 ≤ unit && unit ≤ 0xDBFF

/-- Whether a code unit closes a surrogate pair. -/
def isClosing (unit : Nat) : Bool := 0xDC00 ≤ unit && unit ≤ 0xDFFF

/-- The character that a surrogate pair stands for. -/
def ofPair (first second : Nat) : Char :=
  Char.ofNat (((first - 0xD800) * 0x400 + (second - 0xDC00)) + 0x10000)

/-- The character that a backslash and one letter stand for. -/
def shortEscape? : Char → Option Char
  | '"' => some '"'
  | '\\' => some '\\'
  | '/' => some '/'
  | 'b' => some '\x08'
  | 'f' => some '\x0c'
  | 'n' => some '\n'
  | 'r' => some '\r'
  | 't' => some '\t'
  | _ => none

/-- A malformation at a byte offset. -/
def malformedAt (what : Malformed) (offset : Nat) : Fault :=
  { problem := .malformed what, offset }

/-- The fault of four bytes that should be a code unit and are not. -/
def codeUnitFault (c : Cursor) : Fault :=
  if 4 ≤ Cursor.byteCount c.rest then malformedAt .invalidEscape (c.offset + 4)
  else malformedAt .endInString c.atEnd.offset

/-- The fault of a text that should be the second half of a surrogate pair and is not. -/
def pairFault (c : Cursor) : Fault :=
  match c.rest with
  | [] => malformedAt .endInString c.offset
  | ['\\'] => malformedAt .endInString (c.offset + 1)
  | '\\' :: 'u' :: rest => codeUnitFault ⟨rest, c.offset + 2⟩
  | '\\' :: _ => malformedAt .unfinishedPair (c.offset + 2)
  | _ => malformedAt .unfinishedPair (c.offset + 1)

/-- Reads the characters of a string up to and including its closing quote. `read` holds the
characters so far, the latest first. -/
def stringBody (read : List Char) : List Char → Nat → Except Fault (String × Cursor)
  | [], offset => .error (malformedAt .endInString offset)
  | '"' :: rest, offset => .ok (String.ofList read.reverse, ⟨rest, offset + 1⟩)
  | '\\' :: [], offset => .error (malformedAt .endInString (offset + 1))
  | '\\' :: 'u' :: a :: b :: c :: d :: rest, offset =>
    match codeUnit? a b c d with
    | none => .error (codeUnitFault ⟨a :: b :: c :: d :: rest, offset + 2⟩)
    | some unit =>
      if isClosing unit then .error (malformedAt .loneSurrogate (offset + 6))
      else if isLeading unit then
        match rest with
        | '\\' :: 'u' :: e :: f :: g :: h :: rest =>
          match codeUnit? e f g h with
          | none => .error (codeUnitFault ⟨e :: f :: g :: h :: rest, offset + 8⟩)
          | some second =>
            if isClosing second then stringBody (ofPair unit second :: read) rest (offset + 12)
            else .error (malformedAt .loneSurrogate (offset + 12))
        | rest => .error (pairFault ⟨rest, offset + 6⟩)
      else stringBody (Char.ofNat unit :: read) rest (offset + 6)
  | '\\' :: 'u' :: rest, offset => .error (codeUnitFault ⟨rest, offset + 2⟩)
  | '\\' :: letter :: rest, offset =>
    match shortEscape? letter with
    | some char => stringBody (char :: read) rest (offset + 2)
    | none => .error (malformedAt .invalidEscape (offset + 2))
  | char :: rest, offset =>
    if char.toNat < 0x20 then .error (malformedAt .controlCharacter (offset + 1))
    else stringBody (char :: read) rest (offset + char.utf8Size)

/-- Reads a string whose opening quote is the next character. -/
def Reader.string : Reader String := fun c => stringBody [] c.skip.rest c.skip.offset

/-! ## Numbers -/

/-- The largest significand that is kept exactly. -/
def maxSignificand : Nat := UInt64.size - 1

/-- The largest exponent that is kept exactly. -/
def maxExponent : Nat := UInt32.size / 2 - 1

/-- The value of a decimal digit. -/
def digitValue (c : Char) : Nat := c.toNat - '0'.toNat

/-- Reads the digits before the point into a significand. From the first digit that does not fit
on, digits are only counted. -/
def wholeDigits (significand dropped : Nat) : List Char → Nat → Nat × Nat × Cursor
  | [], offset => (significand, dropped, ⟨[], offset⟩)
  | c :: rest, offset =>
    if c.isDigit then
      if dropped = 0 && significand * 10 + digitValue c ≤ maxSignificand then
        wholeDigits (significand * 10 + digitValue c) 0 rest (offset + 1)
      else wholeDigits significand (dropped + 1) rest (offset + 1)
    else (significand, dropped, ⟨c :: rest, offset⟩)

/-- Reads the digits after the point into the significand, counting those that go in. From the
first digit that does not fit on, digits are skipped; `full` says that this has happened. -/
def placeDigits (significand places : Nat) (full : Bool) :
    List Char → Nat → Nat × Nat × Bool × Cursor
  | [], offset => (significand, places, full, ⟨[], offset⟩)
  | c :: rest, offset =>
    if c.isDigit then
      if !full && significand * 10 + digitValue c ≤ maxSignificand then
        placeDigits (significand * 10 + digitValue c) (places + 1) full rest (offset + 1)
      else placeDigits significand places true rest (offset + 1)
    else (significand, places, full, ⟨c :: rest, offset⟩)

/-- Reads the digits of an exponent. Stops after the first digit that makes it too large, with
`true`. -/
def exponentDigits (exponent : Nat) : List Char → Nat → Nat × Bool × Cursor
  | [], offset => (exponent, false, ⟨[], offset⟩)
  | c :: rest, offset =>
    if c.isDigit then
      if exponent * 10 + digitValue c ≤ maxExponent then
        exponentDigits (exponent * 10 + digitValue c) rest (offset + 1)
      else (exponent, true, ⟨rest, offset + 1⟩)
    else (exponent, false, ⟨c :: rest, offset⟩)

/-- The cursor after the decimal digits that come next. -/
def Cursor.skipDigits (c : Cursor) : Cursor :=
  let digits := c.rest.takeWhile Char.isDigit
  ⟨c.rest.dropWhile Char.isDigit, c.offset + digits.length⟩

namespace Reader

/-- The next character, if there is one. -/
def peek : Reader (Option Char) := fun c => .ok (c.rest.head?, c)

/-- The floating-point number `± significand · 10 ^ exponent`. -/
def real (negative : Bool) (significand : Nat) (exponent : Int) : Reader Number := do
  match Decimal.scale? significand exponent with
  | some x => return .real (if negative then -x else x)
  | none => failHere .numberOutOfRange

/-- Reads an exponent, whose letter is the next character, and finishes the number. -/
def exponent (negative : Bool) (significand : Nat) (shift : Int) : Reader Number := do
  eat
  let sign ← peek
  if sign == some '+' || sign == some '-' then eat
  match ← peek with
  | none => failHere .endInValue
  | some first =>
    if !first.isDigit then failAhead .invalidNumber
    else
      let c ← get
      let (value, tooLarge, next) := exponentDigits 0 c.rest c.offset
      set next
      if !tooLarge then
        real negative significand (if sign == some '-' then shift - value else shift + value)
      else if significand ≠ 0 && sign != some '-' then failHere .numberOutOfRange
      else
        modify Cursor.skipDigits
        return .real (if negative then -0.0 else 0.0)

/-- Reads a fraction, whose point is the next character, and finishes the number. -/
def fraction (negative : Bool) (significand : Nat) (shift : Int) : Reader Number := do
  eat
  let c ← get
  let (significand, places, full, next) := placeDigits significand 0 false c.rest c.offset
  set next
  if places = 0 && !full then
    match ← peek with
    | some _ => failAhead .invalidNumber
    | none => failAhead .endInValue
  else
    let shift := shift - places
    match ← peek with
    | some 'e' | some 'E' => exponent negative significand shift
    | _ => real negative significand shift

/-- Finishes a number after its whole part, of which `dropped` digits did not fit. -/
def afterWhole (negative : Bool) (significand dropped : Nat) : Reader Number := do
  match ← peek with
  | some '.' => fraction negative significand dropped
  | some 'e' | some 'E' => exponent negative significand dropped
  | _ =>
    if dropped ≠ 0 then real negative significand dropped
    else if !negative then return .integer significand
    else if 0 < significand && significand ≤ UInt64.size / 2 then return .integer (-significand)
    else return .real (-significand.toUInt64.toFloat)

/-- Reads a number without its sign. -/
def unsignedNumber (negative : Bool) : Reader Number := do
  match ← peek with
  | none => failHere .endInValue
  | some '0' =>
    eat
    match ← peek with
    | some next =>
      if next.isDigit then failAhead .invalidNumber else afterWhole negative 0 0
    | none => afterWhole negative 0 0
  | some first =>
    if !first.isDigit then failAhead .invalidNumber
    else
      let c ← get
      let (significand, dropped, next) := wholeDigits 0 0 c.rest c.offset
      set next
      afterWhole negative significand dropped

/-- Reads a number. -/
def number : Reader Number := do
  if (← peek) == some '-' then
    eat
    unsignedNumber true
  else unsignedNumber false

/-- Reads the given letters. -/
def letters : List Char → Reader Unit
  | [] => return ()
  | expected :: rest => do
    match ← peek with
    | none => failHere .endInValue
    | some found =>
      if found = expected then
        eat
        letters rest
      else failAhead .expectedIdent

end Reader

end Json

end SchemaGrammar
