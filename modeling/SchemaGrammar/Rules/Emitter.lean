import SchemaGrammar.Rules.Composite
import SchemaGrammar.Shape.Basic

/-!
# From shapes to rules

Every shape is resolved once: to the name of its rule, or to its text if it is a literal. A
definition that is reached again while its body is being resolved is recursive and keeps the name
that was taken for it; any other definition may share the rule of an equal body.

Shapes may form cycles, but only through references, and a reference in progress is not entered
again. Resolution therefore nests no deeper than the number of references times the number of
shapes, which bounds the recursion here.

## Main definitions

* `Resolution`, `Emitter`: how far each shape has come, and the state of the whole.
* `Emitter.resolve`, `Emitter.render`: a reference to a shape, and a shape's own body.
* `Emitter.emit`, `Emitter.text`: the root rule, and the text of the grammar.
-/

namespace SchemaGrammar

open Grammar

/-- How far a shape has come. -/
inductive Resolution where
  | pending
  | inProgress (name : String) (referenced : Bool)
  | done (reference : Body)
deriving Repr

/-- The state of an emission: the rules so far, what became of each shape, and the root rule. -/
structure Emitter where
  rules : Rules := {}
  resolved : Array Resolution
  root : Option Body := none
deriving Repr

/-- Emission changes the state even when it fails. -/
abbrev EmitM := ExceptT CompileError (StateM Emitter)

namespace Emitter

/-- Nothing has been resolved yet. -/
def start (shapes : Shapes) : Emitter := { resolved := Array.replicate shapes.size .pending }

/-- How far the shape `id` has come. -/
def resolution (e : Emitter) (id : ShapeId) : Resolution := e.resolved[id]?.getD .pending

/-- Records how far the shape `id` has come. -/
def setResolution (id : ShapeId) (r : Resolution) : EmitM Unit :=
  modify fun e => { e with resolved := e.resolved.setIfInBounds id r }

/-- Works on the rules alone. -/
def onRules {α : Type} (step : StateM Rules α) : EmitM α := do
  let e ← get
  let (result, rules) := step.run e.rules
  set { e with rules }
  return result

/-- Finishes a definition whose body has been resolved. If the definition was referred to
meanwhile it keeps its name; otherwise it may share a rule. -/
def finishReference (id : ShapeId) (name : String) (body : Body) : EmitM Body := do
  match (← get).resolution id with
  | .inProgress _ true =>
    onRules do
      let r ← get
      set (r.bind name (r.aliasOf (r.size + 1) body))
      return .rule name
  | _ => onRules (Rules.intern body (some name))

/-! ## One shape

The functions of this section are told how to resolve the shapes that a shape is made of. -/

section

variable (shapes : Shapes) (recur : ShapeId → EmitM Body)

/-- The body of a list. -/
def renderArray (shape : ArrayShape) : EmitM Body := do
  let leading ← shape.leading.mapM recur
  let item ← recur shape.items
  onRules (Rules.array shape.layout leading item shape.least shape.most)

/-- One declared member of an object. -/
def renderProperty (p : Property) : EmitM Member := do
  return { entry := entry (jsonLiteral p.key) (← recur p.value), required := p.required }

/-- The members of an object that are not declared. -/
def renderAdditional (id : ShapeId) : EmitM Body := do
  let key ← onRules (Rules.terminal (.string {}))
  return entry key (← recur id)

/-- The body of an object. -/
def renderObject (shape : ObjectShape) : EmitM Body := do
  let members ← shape.properties.mapM (renderProperty recur)
  let additional ← shape.additional.mapM (renderAdditional recur)
  onRules (Rules.object shape.layout members additional)

/-- The body of the shape `id` itself. A shape without one is given by its reference. -/
def renderWith (id : ShapeId) : EmitM Body :=
  match shapes.get? id with
  | none => throw (.malformedShapes id)
  | some (.terminal t) => onRules (Rules.terminalBody t)
  | some (.enumeration members) => return alternation (← members.mapM recur)
  | some (.union members) => return alternation (← members.mapM recur)
  | some (.array shape) => renderArray recur shape
  | some (.object shape) => renderObject recur shape
  | some (.reference _ _) | some (.anyJson _) => recur id

/-- A reference to a choice. A choice that has come down to one alternative is that one. -/
def resolveChoice (members : List ShapeId) : EmitM Body := do
  let alternatives ← members.mapM recur
  if (distinct alternatives).length < 2 then return alternation alternatives
  else onRules (Rules.intern (alternation alternatives) none)

/-- A reference to what a definition stands for. -/
def resolveReference (id : ShapeId) (definition : String) (target : ShapeId) : EmitM Body := do
  let name ← onRules (Rules.takeName definition)
  setResolution id (.inProgress name false)
  if shapes.isComposite target then
    let reference ← finishReference id name (← renderWith shapes recur target)
    setResolution target (.done reference)
    return reference
  else finishReference id name (← recur target)

/-- A reference to a shape that has not been met before. -/
def resolvePending (id : ShapeId) : EmitM Body :=
  match shapes.get? id with
  | none => throw (.malformedShapes id)
  | some (.terminal t) => onRules (Rules.terminal t)
  | some (.anyJson layout) => onRules (Rules.anyJson layout)
  | some (.reference definition none) => throw (.unresolvedReference definition)
  | some (.reference definition (some target)) =>
    resolveReference shapes recur id definition target
  | some (.enumeration members) => resolveChoice recur members
  | some (.union members) => resolveChoice recur members
  | some (.array _) | some (.object _) => do
    onRules (Rules.intern (← renderWith shapes recur id) none)

/-- A reference to a shape. -/
def resolveWith (id : ShapeId) : EmitM Body := do
  match (← get).resolution id with
  | .done reference => return reference
  | .inProgress name _ =>
    setResolution id (.inProgress name true)
    return .rule name
  | .pending =>
    let reference ← resolvePending shapes recur id
    setResolution id (.done reference)
    return reference

end

/-! ## All shapes -/

/-- Resolves a shape and all it is made of, nesting at most `fuel` deep. -/
def resolveNested (shapes : Shapes) : (fuel : Nat) → ShapeId → EmitM Body
  | 0, id => throw (.malformedShapes id)
  | fuel + 1, id => resolveWith shapes (resolveNested shapes fuel) id

/-- A bound on how deep resolution nests: between two references every shape is met at most
once. -/
def fuel (shapes : Shapes) : Nat := (shapes.size + 1) * (shapes.size + 1) + 1

/-- A reference to the shape `id`: the name of its rule, or its text if it is a literal. -/
def resolve (shapes : Shapes) (id : ShapeId) : EmitM Body := resolveNested shapes (fuel shapes) id

/-- The body of the shape `id` itself. -/
def render (shapes : Shapes) (id : ShapeId) : EmitM Body := renderWith shapes (resolve shapes) id

/-- Makes the shape `id` the root rule. -/
def emit (shapes : Shapes) (id : ShapeId) : EmitM Unit := do
  let body ← render shapes id
  modify fun e => { e with root := some body }

/-- The text of one rule. -/
def ruleText (name : String) (body : Body) : String := name ++ " ::= " ++ body.text

/-- The root rule's body, followed by up to `trailing` line breaks. -/
def rootBody (e : Emitter) (trailing : Nat) : Body :=
  sequence [e.root.getD .noValue, chain (List.replicate trailing optionalNewLine)]

/-- The text of the grammar: the root rule, then all others in the order they were named. -/
def text (e : Emitter) (trailing : Nat) : String :=
  "\n".intercalate
    (ruleText "root" (e.rootBody trailing) ::
      e.rules.entries.map fun rule => ruleText rule.1 rule.2)

end Emitter

end SchemaGrammar
