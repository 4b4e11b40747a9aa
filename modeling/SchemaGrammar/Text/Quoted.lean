import SchemaGrammar.Text.Unprintable

/-!
# Quoted text

How a piece of text is shown inside a message: between double quotes, with quotes, backslashes,
tabs and line breaks escaped, and every character that does not print spelled by its code point.
A quoted text holds no raw line break and can be read back.
-/

namespace SchemaGrammar

namespace Text

/-- The digits of `n` in base sixteen, lower case, without leading zeros. -/
def hexDigits (n : Nat) : String := String.ofList (Nat.toDigits 16 n)

/-- One character as it stands between the quotes. -/
def quotedChar (c : Char) : String :=
  if c = '"' then "\\\""
  else if c = '\\' then "\\\\"
  else if c = '\t' then "\\t"
  else if c = '\r' then "\\r"
  else if c = '\n' then "\\n"
  else if c = '\x00' then "\\0"
  else if isUnprintable c then "\\u\x7b" ++ hexDigits c.toNat ++ "\x7d"
  else c.toString

/-- The text between double quotes, with everything that would not show escaped. -/
def quoted (text : String) : String :=
  "\"" ++ String.join (text.toList.map quotedChar) ++ "\""

/-- Several quoted texts, separated by commas. -/
def quotedList (texts : List String) : String :=
  ", ".intercalate (texts.map quoted)

end Text

end SchemaGrammar
