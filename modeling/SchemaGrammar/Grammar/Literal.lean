/-!
# Quoted literals

A literal of the grammar stands between double quotes. Quotes, backslashes, tabs and line breaks
are escaped by a backslash, so a literal never holds a raw line break and ends at its own closing
quote.
-/

namespace SchemaGrammar

namespace Grammar

/-- One character of a literal. -/
def literalChar (c : Char) : List Char :=
  if c = '\\' then ['\\', '\\']
  else if c = '"' then ['\\', '"']
  else if c = '\t' then ['\\', 't']
  else if c = '\r' then ['\\', 'r']
  else if c = '\n' then ['\\', 'n']
  else [c]

/-- The literal that matches exactly `text`. -/
def quoteLiteral (text : String) : String :=
  String.ofList ('"' :: text.toList.flatMap literalChar ++ ['"'])

end Grammar

end SchemaGrammar
