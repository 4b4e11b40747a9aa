import SchemaGrammar.Json.Problem

/-!
# Reading a text from left to right

A cursor is what is left of a text and how many bytes came before it. Reading either moves the
cursor forward or stops with a fault. A fault is tied to a byte offset: to the one at the cursor,
or, when it was found by looking at the next character, to the one after the next byte.
-/

namespace SchemaGrammar

namespace Json

/-- What is left of a text, and the number of bytes before it. -/
structure Cursor where
  rest : List Char
  offset : Nat
deriving Repr

/-- Why reading stopped: the problem, where in the document, and at which byte of the text. -/
structure Fault where
  problem : Problem
  place : List Step := []
  offset : Nat
deriving Repr

/-- A reading step: from a cursor to a result and the cursor after it. -/
abbrev Reader := StateT Cursor (Except Fault)

namespace Cursor

/-- The beginning of a text. -/
def start (text : String) : Cursor := ⟨text.toList, 0⟩

/-- The offset after the next byte; at the end there is none. -/
def ahead (c : Cursor) : Nat := if c.rest.isEmpty then c.offset else c.offset + 1

/-- The cursor after the next character. -/
def skip (c : Cursor) : Cursor :=
  match c.rest with
  | [] => c
  | char :: rest => ⟨rest, c.offset + char.utf8Size⟩

/-- The bytes of a list of characters. -/
def byteCount (chars : List Char) : Nat := chars.foldr (fun c n => c.utf8Size + n) 0

/-- The cursor at the end of the text. -/
def atEnd (c : Cursor) : Cursor := ⟨[], c.offset + byteCount c.rest⟩

/-- The blank characters between tokens. -/
def isBlank (c : Char) : Bool := c == ' ' || c == '\n' || c == '\t' || c == '\r'

/-- The cursor after the blanks that come next. -/
def skipBlanks (c : Cursor) : Cursor := go c.rest c.offset
where
  /-- Drops blanks one by one; each is one byte. -/
  go : List Char → Nat → Cursor
    | [], offset => ⟨[], offset⟩
    | char :: rest, offset =>
      if isBlank char then go rest (offset + 1) else ⟨char :: rest, offset⟩

end Cursor

/-- The line and column of a byte offset. -/
def Position.ofOffset (text : String) (offset : Nat) : Position := go text.toList 0 1 0
where
  /-- Walks the text, remembering where the current line began. -/
  go : List Char → Nat → Nat → Nat → Position
    | [], _, line, lineStart => ⟨line, offset - lineStart⟩
    | char :: rest, here, line, lineStart =>
      if offset ≤ here then ⟨line, offset - lineStart⟩
      else if char = '\n' then go rest (here + 1) (line + 1) (here + 1)
      else go rest (here + char.utf8Size) line lineStart

/-- The fault as it is reported for a text. -/
def Fault.toReadError (text : String) (fault : Fault) : ReadError :=
  ⟨fault.place, fault.problem, some (Position.ofOffset text fault.offset)⟩

/-- The fault, `step` further out in the document. -/
def Fault.under (step : Step) (fault : Fault) : Fault :=
  { fault with place := step :: fault.place }

namespace Reader

variable {α : Type}

/-- Stops at the cursor. -/
def failHere (what : Malformed) : Reader α := fun c =>
  .error { problem := .malformed what, offset := c.offset }

/-- Stops because of the next character. -/
def failAhead (what : Malformed) : Reader α := fun c =>
  .error { problem := .malformed what, offset := c.ahead }

/-- Stops because of a value that was just read. -/
def reject (problem : Problem) : Reader α := fun c =>
  .error { problem, offset := c.offset }

/-- The next character after any blanks, which are skipped. -/
def peekToken : Reader (Option Char) := fun c =>
  let c := c.skipBlanks
  .ok (c.rest.head?, c)

/-- Moves past the next character. -/
def eat : Reader Unit := fun c => .ok ((), c.skip)

/-- Reads with every fault placed one step further in. -/
def within (step : Step) (read : Reader α) : Reader α := fun c =>
  match read c with
  | .ok result => .ok result
  | .error fault => .error (fault.under step)

/-- What bounds a loop that moves forward in each of its steps but two: a list with two entries
more than there are characters left. The characters are not counted for this, they are the list. -/
abbrev Steps := List Char

/-- The steps that a loop may take from here. -/
def stepsLeft : Reader Steps := fun c => .ok (' ' :: ' ' :: c.rest, c)

end Reader

end Json

end SchemaGrammar
