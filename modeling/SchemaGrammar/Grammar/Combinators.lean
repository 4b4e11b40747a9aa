import SchemaGrammar.Grammar.Body

/-!
# Sequences, choices and repetitions

Bodies are put together so that the text stays short: parts that match only the empty text are
left out, a choice between one thing is that thing, and a repetition takes the shortest mark.

## Main definitions

* `sequence`, `distinct`, `alternation`: several bodies in a row, and a choice between them.
* `repeatedLiteral`: a literal, written out or counted.
* `repetition`: a body between two counts, with a separator.
-/

namespace SchemaGrammar

namespace Grammar

/-- The given bodies one after the other, without any check. -/
def chain : List Body → Body
  | [] => .empty
  | [b] => b
  | b :: rest => b ++ chain rest

/-- The given bodies one after the other; blank ones are left out. -/
def sequence (parts : List Body) : Body := chain (parts.filter (!·.isBlank))

/-- The bodies that are not blank, each text once, in the order of first appearance. -/
def distinct (alternatives : List Body) : List Body := go [] alternatives
where
  /-- `seen` are the texts that were kept so far. -/
  go (seen : List String) : List Body → List Body
    | [] => []
    | b :: rest =>
      if b.isBlank || seen.contains b.text then go seen rest else b :: go (b.text :: seen) rest

/-- A choice between the given bodies, without any check. -/
def choice : List Body → Body
  | [] => ⟨[]⟩
  | [b] => b
  | b :: rest => b.orElse (choice rest)

/-- A choice between the distinct alternatives, in brackets; one that is alone stands for
itself. -/
def alternation (alternatives : List Body) : Body :=
  match distinct alternatives with
  | [] => .noValue
  | [only] => only
  | several => (choice several).group .once

/-- The text `count` times in a row. -/
def repeatText (text : String) (count : Nat) : String :=
  if text.isEmpty then "" else String.join (List.replicate count text)

/-- How many bytes the literal `text`, written out `count` times, takes: the two quotes, and as
often what stands between the quotes of `text`. -/
def spelledSize (text : String) (count : Nat) : Nat :=
  count * ((quoteLiteral text).utf8ByteSize - 2) + 2

/-- The literal `text`, `count` times: written out, or counted if that is shorter in bytes. -/
def repeatedLiteral (text : String) (count : Nat) : Body :=
  let counted := Body.item (.literal text (.exactly count))
  if 1 < count && counted.text.utf8ByteSize < spelledSize text count then counted
  else .literal (repeatText text count)

/-- `value`, and then `( separator value )` as often as `count` says. -/
def followedBy (value separator : Body) (count : Count) : Body :=
  sequence [value, (chain [separator, value]).group count]

/-- `value` at least `least` times. -/
def unbounded (value : Body) (least : Nat) : Option Body → Body
  | none =>
    match least with
    | 0 => value.group .many
    | 1 => value.group .some
    | n => value.group (.atLeast n)
  | some separator =>
    match least with
    | 0 => (followedBy value separator .many).group .optional
    | 1 => followedBy value separator .many
    | n + 1 => followedBy value separator (.atLeast n)

/-- `value` exactly `n` times, for `n` above one. -/
def fixed (value : Body) (n : Nat) : Option Body → Body
  | none => value.group (.exactly n)
  | some separator =>
    if n = 2 then sequence [value, separator, value]
    else followedBy value separator (.exactly (n - 1))

/-- `value` between `least` and `most` times, for `least` below `most` and `most` above one. -/
def ranged (value : Body) (least most : Nat) : Option Body → Body
  | none => value.group (.between least most)
  | some separator =>
    let further := if least ≤ 1 && most = 2 then .optional else .between (least - 1) (most - 1)
    let once := followedBy value separator further
    if least = 0 then once.group .optional else once

/-- `value` between `least` and `most` times, any number of times without `most`, with `separator`
between two of them. A `most` below `least` counts as `least`. -/
def repetition (value : Body) (separator : Option Body) (least : Nat) : Option Nat → Body
  | none => unbounded value least separator
  | some bound =>
    let most := max bound least
    if most = 0 then .noValue
    else if most = 1 then (if least = 0 then value.group .optional else value)
    else if least = most then fixed value most separator
    else ranged value least most separator

end Grammar

end SchemaGrammar
