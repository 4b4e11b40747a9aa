import SchemaGrammar.Schema.Basic

/-!
# Recursion over schemas

A schema is made of fragments that stand in six places: properties, additional properties, items,
leading items, and the two kinds of union; definitions are a seventh. Whatever is computed from a
schema fragment by fragment is a fold: it is told the fragment and what was computed for its parts.

## Main definitions

* `Schema.Parts`: one thing for each sub-fragment of a fragment.
* `Schema.fold`: recursion over all fragments.
* `Schema.fold_eq`: a fold at a fragment in terms of its parts.
-/

namespace SchemaGrammar

namespace Schema

/-- One `α` for each sub-fragment of a fragment. -/
structure Parts (α : Type) where
  properties : Assoc α
  additional : Option (Additional α)
  items : Option α
  leading : List α
  oneOf : Option (List α)
  anyOf : Option (List α)
  definitions : Assoc α

/-- The sub-fragments themselves. -/
def parts (s : Schema) : Parts Schema where
  properties := s.properties.getD []
  additional := s.additional
  items := s.items
  leading := s.prefixItems.getD []
  oneOf := s.oneOf
  anyOf := s.anyOf
  definitions := s.definitions.getD []

variable {α β : Type}

/-- A choice for undeclared members with its fragment replaced. -/
def mapAdditional (f : α → β) : Additional α → Additional β
  | .allowed yes => .allowed yes
  | .schema fragment => .schema (f fragment)

/-- The parts with `f` applied to each. -/
def Parts.map (f : α → β) (p : Parts α) : Parts β where
  properties := p.properties.map fun entry => (entry.1, f entry.2)
  additional := p.additional.map (mapAdditional f)
  items := p.items.map f
  leading := p.leading.map f
  oneOf := p.oneOf.map (·.map f)
  anyOf := p.anyOf.map (·.map f)
  definitions := p.definitions.map fun entry => (entry.1, f entry.2)

mutual

/-- Recursion over all fragments: `step` is given a fragment and the results for its parts. -/
def fold (step : Schema → Parts α → α) : Schema → α
  | ⟨types, properties, required, additional, items, prefixItems, minItems, maxItems, minLength,
      maxLength, format, enumeration, constant, oneOf, anyOf, definitions, reference,
      description⟩ =>
    step
      ⟨types, properties, required, additional, items, prefixItems, minItems, maxItems, minLength,
        maxLength, format, enumeration, constant, oneOf, anyOf, definitions, reference,
        description⟩
      { properties := foldNamed? step properties
        additional := foldAdditional step additional
        items := foldOption step items
        leading := foldList? step prefixItems
        oneOf := foldLists step oneOf
        anyOf := foldLists step anyOf
        definitions := foldNamed? step definitions }

/-- The results for an optional fragment. -/
def foldOption (step : Schema → Parts α → α) : Option Schema → Option α
  | none => none
  | some s => some (fold step s)

/-- The results for the fragment of undeclared members. -/
def foldAdditional (step : Schema → Parts α → α) :
    Option (Additional Schema) → Option (Additional α)
  | none => none
  | some (.allowed yes) => some (.allowed yes)
  | some (.schema s) => some (.schema (fold step s))

/-- The results for a list of fragments. -/
def foldList (step : Schema → Parts α → α) : List Schema → List α
  | [] => []
  | s :: rest => fold step s :: foldList step rest

/-- The results for a list of fragments, if it is there. -/
def foldLists (step : Schema → Parts α → α) : Option (List Schema) → Option (List α)
  | none => none
  | some list => some (foldList step list)

/-- The results for a list of fragments; none if it is not there. -/
def foldList? (step : Schema → Parts α → α) : Option (List Schema) → List α
  | none => []
  | some list => foldList step list

/-- The results for named fragments. -/
def foldNamed (step : Schema → Parts α → α) : List (String × Schema) → List (String × α)
  | [] => []
  | (name, s) :: rest => (name, fold step s) :: foldNamed step rest

/-- The results for named fragments; none if they are not there. -/
def foldNamed? (step : Schema → Parts α → α) : Option (List (String × Schema)) → List (String × α)
  | none => []
  | some list => foldNamed step list

end

theorem foldList_eq (step : Schema → Parts α → α) (list : List Schema) :
    foldList step list = list.map (fold step) := by
  induction list with
  | nil => simp [foldList]
  | cons s rest ih => simp [foldList, ih]

theorem foldNamed_eq (step : Schema → Parts α → α) (list : List (String × Schema)) :
    foldNamed step list = list.map fun entry => (entry.1, fold step entry.2) := by
  induction list with
  | nil => simp [foldNamed]
  | cons entry rest ih => obtain ⟨name, s⟩ := entry; simp [foldNamed, ih]

/-- A fold at a fragment is one step over the folds of its parts. -/
theorem fold_eq (step : Schema → Parts α → α) (s : Schema) :
    fold step s = step s (s.parts.map (fold step)) := by
  obtain ⟨types, properties, required, additional, items, prefixItems, minItems, maxItems,
    minLength, maxLength, format, enumeration, constant, oneOf, anyOf, definitions, reference,
    description⟩ := s
  rw [fold]
  congr 1
  simp only [parts, Parts.map, Parts.mk.injEq]
  refine ⟨?_, ?_, ?_, ?_, ?_, ?_, ?_⟩
  · cases properties <;> simp [foldNamed?, foldNamed_eq]
  · rcases additional with _ | (_ | _) <;> simp [foldAdditional, mapAdditional]
  · cases items <;> simp [foldOption]
  · cases prefixItems <;> simp [foldList?, foldList_eq]
  · cases oneOf <;> simp [foldLists, foldList_eq]
  · cases anyOf <;> simp [foldLists, foldList_eq]
  · cases definitions <;> simp [foldNamed?, foldNamed_eq]

/-- The sum of the numbers that `size` gives to the elements of a list. -/
def totalOf {α : Type} (size : α → Nat) (list : List α) : Nat :=
  list.foldr (fun x n => size x + n) 0

/-- The number of definitions in a schema, at all depths. -/
def definitionCount : Schema → Nat :=
  fold fun _ p =>
    let additional := match p.additional with
      | some (.schema n) => n
      | _ => 0
    totalOf Prod.snd p.properties + additional + p.items.getD 0 + totalOf id p.leading +
      totalOf id (p.oneOf.getD []) + totalOf id (p.anyOf.getD []) +
      totalOf (fun entry => entry.2 + 1) p.definitions

/-- The number of definitions of a document and of the external ones around it. -/
def definitionTotal (s : Schema) (external : Assoc Schema) : Nat :=
  s.definitionCount + totalOf (fun entry => entry.2.definitionCount + 1) external

end Schema

end SchemaGrammar
