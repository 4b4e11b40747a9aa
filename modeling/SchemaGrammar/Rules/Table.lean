import SchemaGrammar.Terminal.Body

/-!
# Tables of grammar rules

Rules are shared by their text: before a body gets a name, the table looks whether a rule with the
same text is there. Names are given in the order of registration. Names for definitions are taken
before the body of the definition is known, so that it can refer to itself.

## Main definitions

* `Rules`: the table.
* `Rules.intern`: the rule for a body.
* `Rules.takeName`: a name for a definition.
* `Rules.terminal`: the rule or the text of a terminal.
-/

namespace SchemaGrammar

open Grammar

/-- A table of rules: bodies by name in the order the names were given, names by the text of their
body, the names taken for definitions, and the number of the next unnamed rule. -/
structure Rules where
  entries : Assoc Body := []
  byText : Assoc String := []
  taken : List String := []
  nextNumber : Nat := 0
deriving Repr

namespace Rules

/-- The number of rules. -/
def size (r : Rules) : Nat := r.entries.length

/-- Whether a rule has this name. -/
def contains (r : Rules) (name : String) : Bool := r.entries.contains name

/-- Records that `name` is the rule for `body`. -/
def bind (r : Rules) (name : String) (body : Body) : Rules :=
  { r with entries := r.entries.insert name body, byText := r.byText.insert body.text name }

/-- The name of the unnamed rule with number `n`. -/
def numberedName (n : Nat) : String := "rule" ++ toString n

/-- The rule for a body: the one that is there, or a new one under `preferred`, or else under the
next number. A body that only matches the empty text stays as it is, and a body whose text is the
name of a rule is a reference to that rule. -/
def intern (body : Body) (preferred : Option String) : StateM Rules Body := fun r =>
  let text := body.text
  if text == Body.noValue.text then (body, r)
  else if r.contains text || r.taken.contains text then (.rule text, r)
  else
    match r.byText.get? text with
    | some name => (.rule name, r)
    | none =>
      match preferred with
      | some name => (.rule name, r.bind name body)
      | none =>
        let name := numberedName r.nextNumber
        (.rule name, { r with nextNumber := r.nextNumber + 1 }.bind name body)

/-! ## Names of definitions -/

/-- Whether a name can no longer be given to a definition. -/
def isUsed (r : Rules) (name : String) : Bool := r.taken.contains name || r.contains name

/-- The name of a definition, with all but letters, digits and dashes of ASCII replaced. -/
def definitionName (name : String) : String :=
  "def-" ++ String.ofList
    (name.toList.map fun c => if c.isAlphanum || c = '-' then c else '-')

/-- The `n`-th name to try, counted from one. -/
def candidate (base : String) (n : Nat) : String :=
  if n ≤ 1 then base else base ++ "-" ++ toString n

/-- The first name that is not used, of the `n`-th and at most `tries` further ones. -/
def firstUnused (r : Rules) (base : String) : (tries n : Nat) → String
  | 0, n => candidate base n
  | tries + 1, n =>
    if r.isUsed (candidate base n) then r.firstUnused base tries (n + 1) else candidate base n

/-- Takes a name for a definition. No more names are tried than are used. -/
def takeName (name : String) : StateM Rules String := fun r =>
  let given := r.firstUnused (definitionName name) (r.taken.length + r.entries.length) 1
  (given, { r with taken := given :: r.taken })

/-- The body of a rule that keeps its own name. If another rule has this body, the rule becomes
another name of that one. -/
def aliasOf (r : Rules) : (tries : Nat) → Body → Body
  | 0, body => body
  | tries + 1, body =>
    match r.byText.get? body.text with
    | some name => if name = body.text then body else r.aliasOf tries (.rule name)
    | none => body

/-! ## Terminals -/

/-- The rule under a reserved name, made from `body` when it is first asked for. -/
def reserved (name : String) (body : StateM Rules Body) : StateM Rules Body := do
  if (← get).contains name then return .rule name
  else intern (← body) (some name)

/-- The rule for one character of a string. -/
def stringChar : StateM Rules Body := reserved "string-char-rule" (pure stringCharBody)

/-- The body of a terminal. -/
def terminalBody (t : Terminal) : StateM Rules Body := do
  match t with
  | .string bounds => return stringBody bounds (← stringChar)
  | t => return t.body .empty

/-- The rule of a terminal, or its body if it is written where it stands. -/
def terminal (t : Terminal) : StateM Rules Body :=
  match t.ruleName? with
  | none => terminalBody t
  | some name => reserved name (terminalBody t)

end Rules

end SchemaGrammar
