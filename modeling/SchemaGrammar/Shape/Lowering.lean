import SchemaGrammar.Definitions.Scope
import SchemaGrammar.Schema.Fold
import SchemaGrammar.Shape.Basic

/-!
# From schemas to shapes

Each fragment becomes one shape by the first of these keywords that it has: a reference, a union,
a constant, an enumeration, a type. A fragment with none of them allows any JSON value.

All references to a definition share one shape, which is in the table before the body of the
definition is looked at, so a definition may contain itself. It may not stand for itself before
anything has been matched.

Fragments are handled by recursion over the schema. A reference jumps to another fragment; since
each definition is entered once, no chain of jumps is longer than the number of definitions.

## Main definitions

* `Lowering`, `LowerM`: the table that is being built, and what is known of definitions.
* `Lowering.step`: one fragment, given what becomes of its parts.
* `lower`: the shape of a schema.
-/

namespace SchemaGrammar

/-- The shapes so far, the scopes of definitions, and the shapes of the definitions that have been
referred to. -/
structure Lowering where
  shapes : Shapes := {}
  registry : ScopeRegistry := {}
  references : List (DefinitionKey × ShapeId) := []
deriving Repr

/-- Lowering stops at the first error, with the shapes that were made until then. -/
abbrev LowerM := ExceptT CompileError (StateM Lowering)

/-- How the shape of a fragment is made, given its place, layout and the definitions around it. -/
abbrev Lowerer := Place → Layout → Scope → LowerM ShapeId

namespace Lowering

/-- Adds a shape to the table. -/
def push (shape : Shape) : LowerM ShapeId := do
  let st ← get
  let (id, shapes) := st.shapes.push shape
  set { st with shapes }
  return id

/-- Stops because of a combination of keywords. -/
def unsupported {α : Type} (construct : Unsupported) : LowerM α :=
  throw (.unsupported construct)

/-- The definitions visible inside a fragment. Its own ones are recorded with the scope they are
declared in. -/
def enter (s : Schema) (place : Place) (scope : Scope) : LowerM Scope := do
  if s.ownDefinitions.isEmpty then return scope
  else
    let inner := Scope.layer scope (Scope.ofFragment place s)
    modify fun st => { st with registry := st.registry.declare inner }
    return inner

/-- The shape of a literal. -/
def literal (value : Json.Value) : LowerM ShapeId := do
  push (.terminal (← Terminal.ofLiteral value))

/-- The shape of an enumeration. -/
def enumeration (values : List Json.Value) : LowerM ShapeId := do
  if values.isEmpty then unsupported .emptyEnumeration
  else push (.enumeration (← values.mapM literal))

/-- The shape of a choice; one that is alone stands for itself. -/
def choice (none? : Unsupported) : List ShapeId → LowerM ShapeId
  | [] => unsupported none?
  | [only] => return only
  | several => push (.union several)

/-- The terminal of a string. -/
def stringTerminal (s : Schema) : Except CompileError Terminal :=
  match s.textFormat?, s.minLength.getD 0, s.maxLength with
  | some format, _, _ => .ok (.format format)
  | none, least, none => .ok (.string ⟨least, none⟩)
  | none, least, some most =>
    if most < least then .error (.unsupported (.lengthBounds least most))
    else .ok (.string ⟨least, some most⟩)

/-! ## References -/

/-- The shapes that a shape can begin with without anything being matched before. -/
def starts (shapes : Shapes) (id : ShapeId) : List ShapeId :=
  match shapes.get? id with
  | some (.reference _ (some target)) => [target]
  | some (.union members) => members
  | _ => []

/-- Whether one of `pending`, or what it can begin with, is `goal`. Every shape is looked into once;
`seen` marks those that were. -/
def reaches (shapes : Shapes) (goal : ShapeId) :
    (steps : Nat) → (seen : Array Bool) → (pending : List ShapeId) → Bool
  | 0, _, _ => false
  | _ + 1, _, [] => false
  | steps + 1, seen, next :: pending =>
    if next = goal then true
    else if seen[next]?.getD false then reaches shapes goal steps seen pending
    else reaches shapes goal steps (seen.setIfInBounds next true) (starts shapes next ++ pending)

/-- A bound on the steps of such a search: every shape is pushed once for each shape that can begin
with it. -/
def searchSteps (shapes : Shapes) : Nat :=
  Schema.totalOf (fun id => (starts shapes id).length + 1) (List.range shapes.size) + 2

/-- Whether the reference `id` can begin with itself, given its target. -/
def refersBack (shapes : Shapes) (id target : ShapeId) : Bool :=
  reaches shapes id (searchSteps shapes) (Array.replicate shapes.size false) [target]

/-- The shape of what a reference was found to name. `follow` makes the shape of a definition's
body. -/
def referTo (follow : String → Definition → Layout → Scope → LowerM ShapeId) (text : String)
    (layout : Layout) (scope : Scope) : Option (String × Definition) → LowerM ShapeId
  | none => throw (.unresolvedReference text)
  | some (name, definition) => do
    let key := (name, definition.place)
    match (← get).references.lookup key with
    | some id => return id
    | none =>
      let visible := (← get).registry.visible scope key
      let id ← push (.reference name none)
      modify fun st => { st with references := (key, id) :: st.references }
      let target ← follow name definition layout visible
      modify fun st => { st with shapes := st.shapes.setTarget id target }
      if refersBack (← get).shapes id target then unsupported (.selfReference name)
      else return id

/-- The shape of the definition that a reference names. Before it is made, `observe` is told what
was found. -/
def referenceWith (observe : Option (String × Definition) → LowerM Unit)
    (follow : String → Definition → Layout → Scope → LowerM ShapeId) (text : String)
    (layout : Layout) (scope : Scope) : LowerM ShapeId := do
  let found := scope.resolve? text
  observe found
  referTo follow text layout scope found

/-- The shape of the definition that a reference names. -/
def reference (follow : String → Definition → Layout → Scope → LowerM ShapeId) (text : String)
    (layout : Layout) (scope : Scope) : LowerM ShapeId :=
  referenceWith (fun _ => return ()) follow text layout scope

theorem reference_eq_referTo (follow : String → Definition → Layout → Scope → LowerM ShapeId)
    (text : String) (layout : Layout) (scope : Scope) :
    reference follow text layout scope = referTo follow text layout scope (scope.resolve? text) :=
  rfl

/-! ## Lists and objects -/

/-- The first required property that is not declared. -/
def undeclared? (s : Schema) : Option String :=
  (s.required.getD []).find? fun key => !s.declared.contains key

/-- The shape of undeclared members. -/
def additional (inner : Layout) (place : Place) (scope : Scope) :
    Option (Additional Lowerer) → LowerM (Option ShapeId)
  | none | some (.allowed false) => return none
  | some (.allowed true) => return some (← push (.anyJson inner))
  | some (.schema lower) => return some (← lower (.additional :: place) inner scope)

/-- The shape of an object. -/
def object (s : Schema) (parts : Schema.Parts Lowerer) : Lowerer := fun place layout scope => do
  match undeclared? s with
  | some key => unsupported (.undeclaredRequired key)
  | none =>
    let inner := layout.descend
    let properties ← parts.properties.mapM fun (key, lower) => do
      let value ← lower (.property key :: place) inner scope
      return { key, value, required := s.isRequired key }
    let additional ← additional inner place scope parts.additional
    push (.object { properties, additional, layout })

/-- The shape of a list. The bounds are widened to hold the leading items. -/
def array (s : Schema) (parts : Schema.Parts Lowerer) : Lowerer := fun place layout scope => do
  let inner := layout.descend
  match s.minItems, s.maxItems with
  | some least, some most => if most < least then unsupported (.itemBounds least most)
  | _, _ => pure ()
  let leading ← parts.leading.zipIdx.mapM fun (lower, i) => lower (.leading i :: place) inner scope
  let items ← match parts.items with
    | some lower => lower (.items :: place) inner scope
    | none => push (.anyJson inner)
  push (.array
    { leading, items, layout
      least := max (s.minItems.getD 0) leading.length
      most := s.maxItems.map (max · leading.length) })

/-- The shape of a fragment for one of its types. -/
def typed (s : Schema) (parts : Schema.Parts Lowerer) (type : TypeName) : Lowerer :=
  fun place layout scope => do
    match type with
    | .object => object s parts place layout scope
    | .array => array s parts place layout scope
    | .string => push (.terminal (← stringTerminal s))
    | .number => push (.terminal (.number true))
    | .integer => push (.terminal (.number false))
    | .boolean => push (.terminal .boolean)
    | .null => push (.terminal .null)

/-! ## Fragments -/

/-- The shape of a fragment without a reference, by the first keyword that it has. -/
def byKeyword (s : Schema) (parts : Schema.Parts Lowerer) : Lowerer := fun place layout scope => do
  match parts.oneOf, parts.anyOf with
  | some _, some _ => unsupported .bothUnions
  | some branches, none =>
    choice .emptyUnion
      (← branches.zipIdx.mapM fun (lower, i) => lower (.oneOf i :: place) layout scope)
  | none, some branches =>
    choice .emptyUnion
      (← branches.zipIdx.mapM fun (lower, i) => lower (.anyOf i :: place) layout scope)
  | none, none =>
    match s.constant, s.enumeration, s.types with
    | some value, _, _ => literal value
    | none, some values, _ => enumeration values
    | none, none, some types =>
      choice .emptyTypes
        (← types.types.mapM fun type => typed s parts type place layout scope)
    | none, none, none => push (.anyJson layout)

/-- The shape of a fragment, given what becomes of its parts. If the fragment is a reference,
`observe` is told what it was found to name. -/
def stepWith (observe : Lookup → LowerM Unit)
    (follow : String → Definition → Layout → Scope → LowerM ShapeId) (s : Schema)
    (parts : Schema.Parts Lowerer) : Lowerer := fun place layout scope => do
  let scope ← enter s place scope
  match s.reference with
  | some text => referenceWith (fun found => observe ⟨place, text, found⟩) follow text layout scope
  | none => byKeyword s parts place layout scope

/-- The shape of a fragment, given what becomes of its parts. -/
def step (follow : String → Definition → Layout → Scope → LowerM ShapeId) (s : Schema)
    (parts : Schema.Parts Lowerer) : Lowerer :=
  stepWith (fun _ => return ()) follow s parts

/-- The shape of a definition's body, through at most `jumps` references. -/
def follow : (jumps : Nat) → String → Definition → Layout → Scope → LowerM ShapeId
  | 0, name, _, _, _ => throw (.exhausted name)
  | jumps + 1, _, definition, layout, scope =>
    definition.schema.fold (step (follow jumps)) definition.place layout scope

/-- The shape of a schema in a layout, with external definitions around it. -/
def document (s : Schema) (external : Assoc Schema) (layout : Layout) : LowerM ShapeId := do
  let scope := Scope.ofExternal external
  modify fun st => { st with registry := st.registry.declare scope }
  s.fold (step (follow (s.definitionTotal external))) [] layout scope

end Lowering

/-- A table of shapes and the shape of the whole document. -/
structure Lowered where
  shapes : Shapes
  root : ShapeId
deriving Repr

/-- The shapes of a schema. External definitions are visible everywhere, below the schema's own. -/
def lower (s : Schema) (external : Assoc Schema) (layout : Layout) :
    Except CompileError Lowered := do
  let (result, st) := (Lowering.document s external layout).run {}
  return ⟨st.shapes, ← result⟩

end SchemaGrammar
