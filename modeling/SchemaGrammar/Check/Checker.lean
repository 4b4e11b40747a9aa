import SchemaGrammar.Check.Format
import SchemaGrammar.Check.Mismatch
import SchemaGrammar.Definitions.Scope
import SchemaGrammar.Schema.Fold

/-!
# Checking values against schemas

A value is checked by the same keyword that decides a fragment's shape: a reference, a union, a
constant, an enumeration, a type. The first mismatch is reported with the place of the value.

While a definition is checked against a value the pair is remembered; meeting it again means that
the definition leads back to itself without going into the value, and is a mismatch. A union tries
its branches in order; what a failed branch learnt about scopes is kept.

Fragments are handled by recursion over the schema. A reference jumps to another fragment. No
definition is entered twice for the same value, so no chain of jumps is longer than the number of
definitions times the number of levels of the value.

## Main definitions

* `Checking`, `CheckM`: what is known of definitions, and the pairs that are being checked.
* `Checking.step`: one fragment, given how its parts are checked.
* `validate`: the first mismatch between a value and a schema.
-/

namespace SchemaGrammar

open Json (Value)

/-- The scopes of definitions, and the definitions that are being checked against some value. -/
structure Checking where
  registry : ScopeRegistry := {}
  active : List (DefinitionKey × Path) := []
deriving Repr

/-- Checking keeps its state when it fails. -/
abbrev CheckM := ExceptT Failure (StateM Checking)

/-- How a value is checked against a fragment, given the place of the fragment, the place of the
value and the definitions around the fragment. -/
abbrev Checker := Place → Value → Path → Scope → CheckM Unit

/-- Whether a value has a type. Only numbers that were read as integers are integers. -/
def TypeName.admits : TypeName → Value → Bool
  | .string, .string _ => true
  | .number, .number _ => true
  | .integer, .number (.integer _) => true
  | .boolean, .bool _ => true
  | .null, .null => true
  | .object, .object _ => true
  | .array, .array _ => true
  | _, _ => false

namespace Checking

/-- Stops because of a mismatch. -/
def fail {α : Type} (path : Path) (mismatch : Mismatch) : CheckM α :=
  throw ⟨path, mismatch⟩

/-- Runs a check and gives its failure, if any. -/
def attempt (check : CheckM Unit) : CheckM (Option Failure) := fun st =>
  match check st with
  | (.ok (), st) => (.ok none, st)
  | (.error failure, st) => (.ok (some failure), st)

/-- The definitions visible inside a fragment. Its own ones are recorded with the scope they are
declared in. -/
def enter (s : Schema) (place : Place) (scope : Scope) : CheckM Scope := do
  if s.ownDefinitions.isEmpty then return scope
  else
    let inner := Scope.layer scope (Scope.ofFragment place s)
    modify fun st => { st with registry := st.registry.declare inner }
    return inner

/-- Checks a value against what a reference was found to name. `follow` checks a value against a
definition's body. -/
def referTo (follow : String → Definition → Value → Path → Scope → CheckM Unit) (text : String)
    (value : Value) (path : Path) (scope : Scope) : Option (String × Definition) → CheckM Unit
  | none => fail path (.unresolvedReference text)
  | some (name, definition) => do
    let key := (name, definition.place)
    let visible := (← get).registry.visible scope key
    if (← get).active.contains (key, path) then fail path (.selfReference name)
    else
      modify fun st => { st with active := (key, path) :: st.active }
      let outcome ← attempt (follow name definition value path visible)
      modify fun st => { st with active := st.active.erase (key, path) }
      match outcome with
      | none => return ()
      | some failure => throw failure

/-- Checks a value against the definition that a reference names. Before that, `observe` is told
what was found. -/
def referenceWith (observe : Option (String × Definition) → CheckM Unit)
    (follow : String → Definition → Value → Path → Scope → CheckM Unit) (text : String)
    (value : Value) (path : Path) (scope : Scope) : CheckM Unit := do
  let found := scope.resolve? text
  observe found
  referTo follow text value path scope found

/-- Checks a value against the definition that a reference names. -/
def reference (follow : String → Definition → Value → Path → Scope → CheckM Unit) (text : String)
    (value : Value) (path : Path) (scope : Scope) : CheckM Unit :=
  referenceWith (fun _ => return ()) follow text value path scope

theorem reference_eq_referTo (follow : String → Definition → Value → Path → Scope → CheckM Unit)
    (text : String) (value : Value) (path : Path) (scope : Scope) :
    reference follow text value path scope =
      referTo follow text value path scope (scope.resolve? text) :=
  rfl

/-- Whether one of the checks succeeds; they are tried in order. -/
def firstSuccess : List (CheckM Unit) → CheckM Bool
  | [] => return false
  | check :: others => do
    match ← attempt check with
    | none => return true
    | some _ => firstSuccess others

/-! ## Strings, lists and objects -/

/-- Whether a count is within its bounds. -/
def within (least : Nat) (most : Option Nat) (found : Nat) : Bool :=
  least ≤ found && most.all (found ≤ ·)

/-- Checks a string. A string with a known format has no other bounds. -/
def string (s : Schema) (text : String) (path : Path) : CheckM Unit := do
  match s.textFormat? with
  | some format =>
    if format.accepts text then return () else fail path (.wrongFormat format text)
  | none =>
    let least := s.minLength.getD 0
    let most := s.maxLength.map (max · least)
    if within least most text.length then return ()
    else fail path (.lengthCount least most text.length)

/-- Checks the items of a list from position `index` on: first against `leading`, then against
`items`. -/
def eachItem (items : Option Checker) (place : Place) (path : Path) (scope : Scope) :
    List Checker → (index : Nat) → List Value → CheckM Unit
  | _, _, [] => return ()
  | check :: leading, index, value :: values => do
    check (.leading index :: place) value (.index index :: path) scope
    eachItem items place path scope leading (index + 1) values
  | [], index, value :: values => do
    match items with
    | some check => check (.items :: place) value (.index index :: path) scope
    | none => pure ()
    eachItem items place path scope [] (index + 1) values

/-- Checks a list. -/
def array (s : Schema) (parts : Schema.Parts Checker) (place : Place) (values : List Value)
    (path : Path) (scope : Scope) : CheckM Unit := do
  let least := max (s.minItems.getD 0) parts.leading.length
  let most := s.maxItems.map (max · least)
  if within least most values.length then
    eachItem parts.items place path scope parts.leading 0 values
  else fail path (.itemCount least most values.length)

/-- Checks the members of an object that are not declared. -/
def additional (parts : Schema.Parts Checker) (place : Place) (extra : List (String × Value))
    (path : Path) (scope : Scope) : CheckM Unit := do
  if extra.isEmpty then return ()
  else
    match parts.additional with
    | none | some (.allowed false) => fail path (.unexpectedKeys (extra.map Prod.fst))
    | some (.allowed true) => return ()
    | some (.schema check) =>
      extra.forM fun (key, value) => check (.additional :: place) value (.key key :: path) scope

/-- Checks an object: undeclared members, then missing ones, then declared ones. -/
def object (s : Schema) (parts : Schema.Parts Checker) (place : Place)
    (members : List (String × Value)) (path : Path) (scope : Scope) : CheckM Unit := do
  additional parts place (members.filter fun m => !s.declared.contains m.1) path scope
  let missing := s.declared.keys.filter fun key => s.isRequired key && !Assoc.contains members key
  if !missing.isEmpty then fail path (.missingKeys missing)
  parts.properties.forM fun (key, check) => do
    match Assoc.get? key members with
    | some value => check (.property key :: place) value (.key key :: path) scope
    | none => return ()

/-! ## Fragments -/

/-- Checks a value against a fragment for one of its types. -/
def typed (s : Schema) (parts : Schema.Parts Checker) (type : TypeName) : Checker :=
  fun place value path scope =>
    if !type.admits value then fail path (.wrongType type value.kind)
    else
      match type, value with
      | .object, .object members => object s parts place members path scope
      | .array, .array values => array s parts place values path scope
      | .string, .string text => string s text path
      | _, _ => return ()

/-- Checks a value against several types. Only those that the value has are tried; the first
failure among them is reported. -/
def someType (check : TypeName → CheckM Unit) (value : Value) (none? : Failure) :
    List TypeName → Option Failure → CheckM Unit
  | [], first => throw (first.getD none?)
  | type :: types, first => do
    if type.admits value then
      match ← attempt (check type) with
      | none => return ()
      | some failure => someType check value none? types (first.or (some failure))
    else someType check value none? types first

/-- Checks a value against a fragment's types. -/
def byTypes (s : Schema) (parts : Schema.Parts Checker) (types : List TypeName) : Checker :=
  fun place value path scope =>
    match types with
    | [type] => typed s parts type place value path scope
    | types =>
      someType (fun type => typed s parts type place value path scope) value
        ⟨path, .noType types value.kind⟩ types none

/-- Checks a value against the branches of a union. -/
def union (branches : List Checker) (placed : Nat → PlaceStep) : Checker :=
  fun place value path scope => do
    let checks := branches.zipIdx.map fun (check, i) => check (placed i :: place) value path scope
    if ← firstSuccess checks then return () else fail path (.noBranch branches.length value)

/-- Checks a value against a fragment without a reference, by the first keyword that it has. -/
def byKeyword (s : Schema) (parts : Schema.Parts Checker) : Checker :=
  fun place value path scope => do
    match parts.oneOf, parts.anyOf with
    | some branches, _ => union branches .oneOf place value path scope
    | none, some branches => union branches .anyOf place value path scope
    | none, none =>
      match s.constant, s.enumeration, s.types with
      | some expected, _, _ =>
        if value.same expected then return () else fail path (.notConstant expected value)
      | none, some members, _ =>
        if members.any (·.same value) then return () else fail path (.notMember members value)
      | none, none, some types => byTypes s parts types.types place value path scope
      | none, none, none => return ()

/-- Checks a value against a fragment, given how its parts are checked. If the fragment is a
reference, `observe` is told what it was found to name. -/
def stepWith (observe : Lookup → CheckM Unit)
    (follow : String → Definition → Value → Path → Scope → CheckM Unit) (s : Schema)
    (parts : Schema.Parts Checker) : Checker := fun place value path scope => do
  let scope ← enter s place scope
  match s.reference with
  | some text =>
    referenceWith (fun found => observe ⟨place, text, found⟩) follow text value path scope
  | none => byKeyword s parts place value path scope

/-- Checks a value against a fragment, given how its parts are checked. -/
def step (follow : String → Definition → Value → Path → Scope → CheckM Unit) (s : Schema)
    (parts : Schema.Parts Checker) : Checker :=
  stepWith (fun _ => return ()) follow s parts

/-- Checks a value against a definition's body, through at most `jumps` references. -/
def follow : (jumps : Nat) → String → Definition → Value → Path → Scope → CheckM Unit
  | 0, name, _, _, path, _ => fail path (.exhausted name)
  | jumps + 1, _, definition, value, path, scope =>
    definition.schema.fold (step (follow jumps)) definition.place value path scope

/-- The longest chain of references that can be needed for a value. -/
def jumps (s : Schema) (external : Assoc Schema) (value : Value) : Nat :=
  s.definitionTotal external * (value.depth + 1)

/-- Checks a value against a schema, with external definitions around it. -/
def document (s : Schema) (external : Assoc Schema) (value : Value) : CheckM Unit := do
  let scope := Scope.ofExternal external
  modify fun st => { st with registry := st.registry.declare scope }
  s.fold (step (follow (jumps s external value))) [] value [] scope

end Checking

/-- Checks a value against a schema; the first mismatch is reported. -/
def validate (s : Schema) (external : Assoc Schema) (value : Value) : Except Failure Unit :=
  ((Checking.document s external value).run {}).1

end SchemaGrammar
