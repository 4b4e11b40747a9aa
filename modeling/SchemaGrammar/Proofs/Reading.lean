import SchemaGrammar.Json.Scanner
import SchemaGrammar.Proofs.Derivation

/-!
# Reading grammars from text

A grammar is handed on as text, so what it means is what its text means. This module reads the
notation: one rule a line, `name ::= body`, a body being a choice between sequences of quoted
literals, character classes, rule names and groups, each with a mark for how often it is matched.

Reading goes in two passes. `Lexer.run` cuts a line into tokens, one character at a time;
`parse` nests the tokens, one token at a time, with a stack of open groups. Both are plain
recursions over a list, so that a text put together from pieces is read piece by piece.

## Scope

The reader knows the notation and nothing of how grammars are written here: blanks may be left
out or repeated, classes may list any characters, and a mark after a mark repeats the whole of
what stands before it. What is not in the notation is not read at all.

## Main definitions

* `readBody`: the body that a text spells.
* `readGrammar`: the rules of a grammar text.
* `Accepts`: the texts that the root rule of a grammar text derives.
-/

namespace SchemaGrammar

namespace Grammar

/-- Whether a character can stand in the name of a rule. -/
def isNameChar (c : Char) : Bool := c.isAlphanum || c == '-'

/-! ## Escapes, classes and counts -/

/-- The character that a backslash and one letter stand for. -/
def escaped? : Char → Option Char
  | '\\' => some '\\'
  | '"' => some '"'
  | '[' => some '['
  | ']' => some ']'
  | 't' => some '\t'
  | 'r' => some '\r'
  | 'n' => some '\n'
  | _ => none

/-- The characters that a text with escapes stands for, each with a mark whether it was written as
an escape. -/
def unescape : List Char → Option (List (Char × Bool))
  | [] => some []
  | '\\' :: 'x' :: a :: b :: rest => do
    let a ← Json.hexValue? a
    let b ← Json.hexValue? b
    return (Char.ofNat (16 * a + b), true) :: (← unescape rest)
  | '\\' :: c :: rest => do return (← escaped? c, true) :: (← unescape rest)
  | ['\\'] => none
  | c :: rest => do return (c, false) :: (← unescape rest)

/-- The entries of a class. A dash between two characters makes a range, if it is not escaped. -/
def readEntries : List (Char × Bool) → List ClassEntry
  | [] => []
  | (first, _) :: ('-', false) :: (last, _) :: rest => .range first last :: readEntries rest
  | (c, _) :: rest => .single c :: readEntries rest

/-- The class that is spelled between two square brackets. -/
def readClass : List Char → Option CharClass
  | '^' :: text => do return { negated := true, entries := readEntries (← unescape text) }
  | text => do return { entries := readEntries (← unescape text) }

/-- The number that a text of digits stands for. -/
def readNumber (digits : List Char) : Option Nat :=
  if !digits.isEmpty && digits.all Char.isDigit then some (Nat.ofDigitChars 10 digits 0) else none

/-- The count that is spelled between two braces. -/
def readCount (text : List Char) : Option Count :=
  match text.span Char.isDigit with
  | (n, []) => do return .exactly (← readNumber n)
  | (n, [',']) => do return .atLeast (← readNumber n)
  | (n, ',' :: m) => do return .between (← readNumber n) (← readNumber m)
  | _ => none

/-! ## Tokens -/

/-- A token of the notation. -/
inductive Token where
  | atom (i : Item)
  | mark (count : Count)
  | opening
  | closing
  | bar

/-- What the text so far ends in the middle of. -/
inductive Mode where
  | between
  | name (text : List Char)
  | quoted (text : List Char) (escape : Bool)
  | set (text : List Char) (escape : Bool)
  | counted (text : List Char)

namespace Lexer

/-- A character that is not inside a token. -/
def start (c : Char) : Option (List Token × Mode) :=
  if isNameChar c then some ([], .name [c])
  else
    match c with
    | ' ' => some ([], .between)
    | '"' => some ([], .quoted [] false)
    | '[' => some ([], .set [] false)
    | '\x7b' => some ([], .counted [])
    | '(' => some ([.opening], .between)
    | ')' => some ([.closing], .between)
    | '|' => some ([.bar], .between)
    | '?' => some ([.mark .optional], .between)
    | '*' => some ([.mark .many], .between)
    | '+' => some ([.mark .some], .between)
    | _ => none

/-- The token that a finished name is. -/
def nameToken (text : List Char) : Token := .atom (.rule (String.ofList text) .once)

/-- One more character: the tokens that it finishes, and what it leaves the text in the middle
of. -/
def step : Mode → Char → Option (List Token × Mode)
  | .between, c => start c
  | .name text, c =>
    if isNameChar c then some ([], .name (text ++ [c]))
    else (start c).map fun next => (nameToken text :: next.1, next.2)
  | .quoted text true, c => some ([], .quoted (text ++ [c]) false)
  | .quoted text false, c =>
    if c = '"' then
      (unescape text).map fun chars =>
        ([.atom (.literal (String.ofList (chars.map Prod.fst)) .once)], .between)
    else some ([], .quoted (text ++ [c]) (c = '\\'))
  | .set text true, c => some ([], .set (text ++ [c]) false)
  | .set text false, c =>
    if c = ']' then (readClass text).map fun set => ([.atom (.chars set .once)], .between)
    else some ([], .set (text ++ [c]) (c = '\\'))
  | .counted text, c =>
    if c = '\x7d' then (readCount text).map fun count => ([.mark count], .between)
    else some ([], .counted (text ++ [c]))

/-- The tokens of a text, and what it ends in the middle of. -/
def run : Mode → List Char → Option (List Token × Mode)
  | mode, [] => some ([], mode)
  | mode, c :: text => do
    let (tokens, mode) ← step mode c
    let (more, mode) ← run mode text
    return (tokens ++ more, mode)

/-- The token that the end of the text finishes. Nothing but a name may end there. -/
def finish : Mode → Option (List Token)
  | .between => some []
  | .name text => some [nameToken text]
  | _ => none

/-- All tokens of a text. -/
def tokens (text : List Char) : Option (List Token) := do
  let (tokens, mode) ← run .between text
  return tokens ++ (← finish mode)

end Lexer

/-! ## Nesting -/

/-- A group that is being read: the choices that are complete, and the items of the next one. -/
structure Frame where
  choices : List (List Item) := []
  items : List Item := []

/-- The choices of a group at its end. -/
def Frame.all (f : Frame) : List (List Item) := f.choices ++ [f.items]

/-- The frame with one more item. -/
def Frame.push (f : Frame) (i : Item) : Frame := { f with items := f.items ++ [i] }

/-- An item with a mark after it. An item that has a count is repeated as a whole. -/
def Item.marked (count : Count) : Item → Item
  | .literal text .once => .literal text count
  | .chars set .once => .chars set count
  | .rule name .once => .rule name count
  | .group tight choices .once => .group tight choices count
  | i => .group false [[i]] count

/-- One more token, given the groups that are open, the innermost first. -/
def parseStep : List Frame → Token → Option (List Frame)
  | f :: outer, .atom i => some (f.push i :: outer)
  | f :: outer, .bar => some ({ choices := f.all } :: outer)
  | f :: outer, .opening => some ({} :: f :: outer)
  | f :: g :: outer, .closing => some (g.push (.group false f.all .once) :: outer)
  | f :: outer, .mark count => do
    let last ← f.items.getLast?
    return { f with items := f.items.dropLast ++ [last.marked count] } :: outer
  | _, _ => none

/-- The body that a list of tokens spells. -/
def parse (tokens : List Token) : Option Body := do
  match ← tokens.foldlM parseStep [{}] with
  | [f] => some ⟨f.all⟩
  | _ => none

/-- The body that a text spells. -/
def readBody (text : List Char) : Option Body := do parse (← Lexer.tokens text)

/-! ## Grammars -/

/-- The rule of one line. -/
def readRule (line : List Char) : Option (String × Body) :=
  match line.span isNameChar with
  | ([], _) => none
  | (name, ' ' :: ':' :: ':' :: '=' :: ' ' :: body) => do
    return (String.ofList name, ← readBody body)
  | _ => none

/-- The rules of a grammar text, one a line. No two may have the same name. -/
def readGrammar (text : String) : Option (Assoc Body) := do
  let rules ← (text.toList.splitOn '\n').mapM readRule
  if (Assoc.keys rules).Nodup then some rules else none

/-- Whether a text is derived by the rule `root` of a grammar text. -/
def Accepts (grammar text : String) : Prop :=
  ∃ rules, readGrammar grammar = some rules ∧ text.toList ∈ derivable rules "root"

end Grammar

end SchemaGrammar
