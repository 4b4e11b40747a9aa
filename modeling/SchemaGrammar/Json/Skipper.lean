import SchemaGrammar.Json.Scanner

/-!
# Values that are skipped

The value of a keyword that means nothing here is checked to be JSON and otherwise ignored. It may
be nested to any depth and its numbers may be of any size, so the open brackets are kept on a
list instead of in the recursion.
-/

namespace SchemaGrammar

namespace Json

/-- Skips the characters of a string up to and including its closing quote. Escapes only need to
be of the right shape. -/
def skipStringBody : List Char → Nat → Except Fault Cursor
  | [], offset => .error (malformedAt .endInString offset)
  | '"' :: rest, offset => .ok ⟨rest, offset + 1⟩
  | '\\' :: [], offset => .error (malformedAt .endInString (offset + 1))
  | '\\' :: 'u' :: a :: b :: c :: d :: rest, offset =>
    match codeUnit? a b c d with
    | none => .error (codeUnitFault ⟨a :: b :: c :: d :: rest, offset + 2⟩)
    | some _ => skipStringBody rest (offset + 6)
  | '\\' :: 'u' :: rest, offset => .error (codeUnitFault ⟨rest, offset + 2⟩)
  | '\\' :: letter :: rest, offset =>
    match shortEscape? letter with
    | some _ => skipStringBody rest (offset + 2)
    | none => .error (malformedAt .invalidEscape (offset + 2))
  | char :: rest, offset =>
    if char.toNat < 0x20 then .error (malformedAt .controlCharacter offset)
    else skipStringBody rest (offset + char.utf8Size)

namespace Reader

/-- Skips a string whose opening quote is the next character. -/
def skipString : Reader Unit := fun c =>
  (skipStringBody c.skip.rest c.skip.offset).map fun next => ((), next)

/-- Skips an exponent, whose letter is the next character. -/
def skipExponent : Reader Unit := do
  eat
  let sign ← peek
  if sign == some '+' || sign == some '-' then eat
  if ((← peek).any Char.isDigit) then modify Cursor.skipDigits
  else failAhead .invalidNumber

/-- Skips a fraction, whose point is the next character, and an exponent after it. -/
def skipFraction : Reader Unit := do
  eat
  if ((← peek).any Char.isDigit) then
    modify Cursor.skipDigits
    match ← peek with
    | some 'e' | some 'E' => skipExponent
    | _ => return ()
  else failAhead .invalidNumber

/-- Skips a number without its sign. -/
def skipUnsigned : Reader Unit := do
  let first ← peek
  if first == some '0' then
    eat
    if ((← peek).any Char.isDigit) then failAhead .invalidNumber
  else if first.any Char.isDigit then modify Cursor.skipDigits
  else failAhead .invalidNumber
  match ← peek with
  | some '.' => skipFraction
  | some 'e' | some 'E' => skipExponent
  | _ => return ()

/-- The kind of an open bracket. -/
inductive Bracket where
  | list | object
deriving Repr, DecidableEq

/-- The character that closes a bracket. -/
def Bracket.closing : Bracket → Char
  | .list => ']'
  | .object => '}'

/-- The fault of a text that ends inside a bracket. -/
def Bracket.atEnd : Bracket → Malformed
  | .list => .endInList
  | .object => .endInObject

/-- The fault of a text that goes on wrongly after a value inside a bracket. -/
def Bracket.unclosed : Bracket → Malformed
  | .list => .expectedListEnd
  | .object => .expectedObjectEnd

/-- Skips a member's name and the colon after it. -/
def skipKey : Reader Unit := do
  match ← peekToken with
  | some '"' => skipString
  | some _ => failAhead .keyNotString
  | none => failAhead .endInObject
  match ← peekToken with
  | some ':' => eat
  | some _ => failAhead .expectedColon
  | none => failAhead .endInObject

/-- Skips what has to come before the next value inside a bracket. -/
def skipLead : Bracket → Reader Unit
  | .list => return ()
  | .object => skipKey

/-- Skips the rest of a value, given the brackets that are open around the cursor, the innermost
first. `complete` says that a value has just ended; otherwise one has to begin. -/
def skipRest : (steps : Steps) → (opened : List Bracket) → (complete : Bool) → Reader Unit
  | [], _, _ => failHere .endInValue
  | _ :: _, [], true => return ()
  | _ :: steps, bracket :: outer, true => do
    match ← peekToken with
    | none => failAhead bracket.atEnd
    | some c =>
      if c = ',' then
        eat
        skipLead bracket
        skipRest steps (bracket :: outer) false
      else if c = bracket.closing then
        eat
        skipRest steps outer true
      else failAhead bracket.unclosed
  | _ :: steps, opened, false => do
    match ← peekToken with
    | none => failAhead .endInValue
    | some 'n' => eat; letters ['u', 'l', 'l']; skipRest steps opened true
    | some 't' => eat; letters ['r', 'u', 'e']; skipRest steps opened true
    | some 'f' => eat; letters ['a', 'l', 's', 'e']; skipRest steps opened true
    | some '-' => eat; skipUnsigned; skipRest steps opened true
    | some '"' => skipString; skipRest steps opened true
    | some '[' => eat; enter steps .list opened
    | some '{' => eat; enter steps .object opened
    | some c =>
      if c.isDigit then
        skipUnsigned
        skipRest steps opened true
      else failAhead .expectedValue
where
  /-- Goes into a bracket that has just been opened; it may be closed at once. -/
  enter (steps : Steps) (bracket : Bracket) (opened : List Bracket) : Reader Unit := do
    match ← peekToken with
    | none => failAhead bracket.atEnd
    | some c =>
      if c = bracket.closing then
        eat
        skipRest steps opened true
      else
        skipLead bracket
        skipRest steps (bracket :: opened) false

/-- Skips one value. -/
def skipValue : Reader Unit := do
  skipRest (← stepsLeft) [] false

end Reader

end Json

end SchemaGrammar
