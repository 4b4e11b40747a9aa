import SchemaGrammar.Decimal.Shortest
import SchemaGrammar.Json.Value

/-!
# The compact text of a value

No blanks between tokens, members in their order, integers in full, and every floating-point
number with the fewest digits that read back.
-/

namespace SchemaGrammar

namespace Json

/-- The exponents of the first digit for which a number is written without an exponent. -/
def positional (leading : Int) : Bool := -5 ≤ leading && leading ≤ 15

/-- A decimal: in plain notation with at least one place after the point, or with the sign of its
exponent always written. -/
def decimalText (d : Decimal.Digits) : String :=
  let digits := d.significant
  if positional d.leading then
    if d.leading < 0 then
      "0." ++ String.ofList (List.replicate (d.leading.natAbs - 1) '0' ++ digits)
    else
      let whole := d.leading.natAbs + 1
      let padded := digits ++ List.replicate (whole - digits.length) '0'
      let places := padded.drop whole
      String.ofList (padded.take whole) ++ "." ++
        (if places.isEmpty then "0" else String.ofList places)
  else
    let mantissa := match digits with
      | first :: second :: rest => String.ofList (first :: '.' :: second :: rest)
      | short => String.ofList short
    mantissa ++ "e" ++ (if d.leading < 0 then "-" else "+") ++ toString d.leading.natAbs

/-- A finite floating-point number. -/
def realText (x : Float) : String :=
  let sign := if x.toBits >>> 63 = 1 then "-" else ""
  match Decimal.Binary.ofBits? x.toBits with
  | none => sign ++ "0.0"
  | some b => sign ++ decimalText b.shortest

/-- The text of a number. -/
def Number.text : Number → String
  | .integer n => toString n
  | .real x => realText x

/-- A lower-case digit of base sixteen. -/
def hexDigit (n : Nat) : Char := Nat.digitChar n

/-- One character between the quotes of a string. -/
def escapedChar (c : Char) : List Char :=
  if c = '"' then ['\\', '"']
  else if c = '\\' then ['\\', '\\']
  else if c = '\x08' then ['\\', 'b']
  else if c = '\x0c' then ['\\', 'f']
  else if c = '\n' then ['\\', 'n']
  else if c = '\r' then ['\\', 'r']
  else if c = '\t' then ['\\', 't']
  else if c.toNat < 0x20 then
    ['\\', 'u', '0', '0', hexDigit (c.toNat / 16), hexDigit (c.toNat % 16)]
  else [c]

/-- A string between its quotes. -/
def stringText (s : String) : String :=
  String.ofList ('"' :: s.toList.flatMap escapedChar ++ ['"'])

namespace Value

mutual

/-- The pieces that the compact text of a value is written in. -/
def pieces : Value → List String
  | .null => ["null"]
  | .bool true => ["true"]
  | .bool false => ["false"]
  | .number n => [n.text]
  | .string s => [stringText s]
  | .array items => "[" :: (itemsPieces items ++ ["]"])
  | .object members => "\x7b" :: (membersPieces members ++ ["\x7d"])

/-- The items of an array, separated by commas. -/
def itemsPieces : List Value → List String
  | [] => []
  | [item] => pieces item
  | item :: items => pieces item ++ "," :: itemsPieces items

/-- The members of an object, separated by commas. -/
def membersPieces : List (String × Value) → List String
  | [] => []
  | [(key, value)] => stringText key :: ":" :: pieces value
  | (key, value) :: members =>
    stringText key :: ":" :: (pieces value ++ "," :: membersPieces members)

end

/-- The compact text of a value. -/
def text (v : Value) : String := String.join v.pieces

end Value

end Json

end SchemaGrammar
