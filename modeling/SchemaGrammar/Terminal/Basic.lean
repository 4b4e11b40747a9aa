import SchemaGrammar.Error
import SchemaGrammar.Layout
import SchemaGrammar.Schema.Basic

/-!
# Terminals

The leaves of a grammar: literals, the scalar types, and the blanks between tokens. A terminal
that several places can share has a rule name reserved for it; a literal is written where it
stands.

## Main definitions

* `Terminal`: the leaves.
* `Terminal.ofLiteral`: the terminal of a literal value.
* `Terminal.ruleName?`: the reserved rule name.
-/

namespace SchemaGrammar

/-- Bounds on the number of characters of a string. -/
structure LengthBounds where
  least : Nat := 0
  most : Option Nat := none
deriving Repr, DecidableEq

/-- A leaf of a grammar. -/
inductive Terminal where
  | null
  | booleanLiteral (b : Bool)
  | boolean
  | numberLiteral (n : Json.Number)
  | number (fractional : Bool)
  | stringLiteral (text : String)
  | string (bounds : LengthBounds)
  | format (f : TextFormat)
  | verbatim (text : String)
  | whitespace (layout : Layout)
  | stringChar
deriving Repr

namespace Terminal

/-- The terminal that matches one literal value. Arrays and objects have none. -/
def ofLiteral : Json.Value → Except CompileError Terminal
  | .null => .ok .null
  | .bool b => .ok (.booleanLiteral b)
  | .number n => .ok (.numberLiteral n)
  | .string s => .ok (.stringLiteral s)
  | literal => .error (.literalKind literal)

end Terminal

/-! ## Reserved names -/

/-- The rule name of a string with bounds. -/
def LengthBounds.ruleName : LengthBounds → String
  | ⟨0, none⟩ => "string-rule"
  | ⟨least, none⟩ => "string-" ++ toString least ++ "-plus-rule"
  | ⟨least, some most⟩ => "string-" ++ toString least ++ "-" ++ toString most ++ "-rule"

/-- The rule name of the blanks at depth `depth`. -/
def whitespaceName (depth padSpaces : Nat) : String :=
  "whitespace-" ++ toString depth ++ "-" ++ toString padSpaces ++ "-rule"

/-- The rule name of any JSON value at depth `depth`. -/
def anyJsonName (depth padSpaces : Nat) : String :=
  "any-json-" ++ toString depth ++ "-" ++ toString padSpaces ++ "-rule"

/-- The rule name of the blanks in a layout. -/
def Layout.whitespaceRule (l : Layout) : String :=
  if l.newLines then whitespaceName l.depth l.padSpaces else "whitespace-no-new-lines-rule"

/-- The rule name of any JSON value in a layout. -/
def Layout.anyJsonRule (l : Layout) : String :=
  if l.newLines then anyJsonName l.depth l.padSpaces else "any-json-no-new-lines-rule"

/-- Whether a name is kept for terminals and for any JSON value. -/
def isReserved (name : String) : Bool := "-rule".toList.isSuffixOf name.toList

namespace Terminal

/-- The rule name that all uses of a terminal share; `none` if it is written where it stands. -/
def ruleName? : Terminal → Option String
  | .booleanLiteral _ | .numberLiteral _ | .stringLiteral _ | .verbatim _ => none
  | .null => some "null-rule"
  | .boolean => some "boolean-rule"
  | .number true => some "fractional-number-rule"
  | .number false => some "integer-number-rule"
  | .string bounds => some bounds.ruleName
  | .format f => some ("format-string-" ++ f.name ++ "-rule")
  | .whitespace layout => some layout.whitespaceRule
  | .stringChar => some "string-char-rule"

/-- Whether a terminal is written where it stands. -/
def isInline (t : Terminal) : Bool := t.ruleName?.isNone

end Terminal

end SchemaGrammar
