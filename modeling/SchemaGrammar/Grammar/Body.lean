import SchemaGrammar.Grammar.Literal

/-!
# Rule bodies

The body of a grammar rule is a choice between sequences of items. An item is a quoted literal, a
character class, the name of a rule or a group, each with a count that says how often it is
matched. Bodies are compared by their text, which is what a grammar file holds.

## Main definitions

* `Count`, `CharClass`, `Item`, `Body`: the expressions.
* `Item.pieces`: the pieces of text that an expression is written in.
* `Body.text`: an expression as it is written.
* `Body.append`, `Body.orElse`: one body after another, and a choice between two.
-/

namespace SchemaGrammar

namespace Grammar

/-- How often an item is matched. -/
inductive Count where
  | once
  | optional
  | many
  | some
  | exactly (n : Nat)
  | atLeast (n : Nat)
  | between (least most : Nat)
deriving Repr, DecidableEq

/-- The mark after an item that is not matched exactly once. -/
def Count.mark : Count → String
  | .once => ""
  | .optional => "?"
  | .many => "*"
  | .some => "+"
  | .exactly n => "\x7b" ++ toString n ++ "\x7d"
  | .atLeast n => "\x7b" ++ toString n ++ ",\x7d"
  | .between least most => "\x7b" ++ toString least ++ "," ++ toString most ++ "\x7d"

/-- One entry of a character class. -/
inductive ClassEntry where
  | single (c : Char)
  | range (first last : Char)
deriving Repr, DecidableEq

/-- A character class: the listed characters, or all others. -/
structure CharClass where
  negated : Bool := false
  entries : List ClassEntry
deriving Repr, DecidableEq

/-- A character inside a class: controls by their code, the backslash escaped. -/
def classChar (c : Char) : String :=
  if c = '\\' then "\\\\"
  else if c = '\n' then "\\n"
  else if c.toNat < 0x20 || c.toNat = 0x7F then
    String.ofList ['\\', 'x', (Nat.digitChar (c.toNat / 16)).toUpper,
      (Nat.digitChar (c.toNat % 16)).toUpper]
  else c.toString

/-- The text of an entry. -/
def ClassEntry.text : ClassEntry → String
  | .single c => classChar c
  | .range first last => classChar first ++ "-" ++ classChar last

/-- The text of a class. -/
def CharClass.text (set : CharClass) : String :=
  "[" ++ (if set.negated then "^" else "") ++ String.join (set.entries.map ClassEntry.text) ++ "]"

/-- A literal, a character class, a rule or a group, and how often it is matched. The brackets of
a `tight` group stand directly at its contents. -/
inductive Item where
  | literal (text : String) (count : Count)
  | chars (set : CharClass) (count : Count)
  | rule (name : String) (count : Count)
  | group (tight : Bool) (choices : List (List Item)) (count : Count)
deriving Repr

mutual

/-- The pieces of text that an item is written in. -/
def Item.pieces : Item → List String
  | .literal text count => [quoteLiteral text, count.mark]
  | .chars set count => [set.text, count.mark]
  | .rule name count => [name, count.mark]
  | .group true choices count => "(" :: (choicesPieces choices ++ [")", count.mark])
  | .group false choices count => "( " :: (choicesPieces choices ++ [" )", count.mark])

/-- The items of a sequence, separated by blanks. -/
def sequencePieces : List Item → List String
  | [] => []
  | [item] => item.pieces
  | item :: items => item.pieces ++ " " :: sequencePieces items

/-- The sequences of a choice, separated by bars. -/
def choicesPieces : List (List Item) → List String
  | [] => []
  | [items] => sequencePieces items
  | items :: choices => sequencePieces items ++ " | " :: choicesPieces choices

end

/-- The body of a rule: a choice between sequences of items. -/
structure Body where
  choices : List (List Item)
deriving Repr, Inhabited

namespace Body

/-- The text of a body: its pieces, put together in one go. -/
def text (b : Body) : String := String.join (choicesPieces b.choices)

/-- The body that holds nothing at all. -/
def empty : Body := ⟨[[]]⟩

/-- The body of a single item. -/
def item (i : Item) : Body := ⟨[[i]]⟩

/-- The body that matches exactly `text`. -/
def literal (text : String) : Body := item (.literal text .once)

/-- The body that matches what the rule `name` matches. -/
def rule (name : String) : Body := item (.rule name .once)

/-- The body that matches nothing but the empty text. -/
def noValue : Body := literal ""

/-- The body in brackets, matched as often as `count` says. -/
def group (b : Body) (count : Count) : Body := item (.group false b.choices count)

/-- The choices of one body followed by those of another: the last of the first goes on with the
first of the second. -/
def appendChoices : List (List Item) → List (List Item) → List (List Item)
  | [], after => after
  | [items], [] => [items]
  | [items], next :: after => (items ++ next) :: after
  | items :: choices, after => items :: appendChoices choices after

/-- One body written after another. -/
def append (a b : Body) : Body := ⟨appendChoices a.choices b.choices⟩

instance : Append Body := ⟨append⟩

/-- A choice between two bodies. -/
def orElse (a b : Body) : Body := ⟨a.choices ++ b.choices⟩

/-- Whether a body adds nothing to a sequence: it is empty or matches only the empty text. -/
def isBlank (b : Body) : Bool := b.text == "" || b.text == noValue.text

end Body

end Grammar

end SchemaGrammar
