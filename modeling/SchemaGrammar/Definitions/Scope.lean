import SchemaGrammar.Schema.Basic

/-!
# Definitions in scope

A definition is known by its name and by where it stands in the document: two definitions of equal
text next to different neighbours are different. The definitions of a fragment are visible inside
it and hide outer ones of the same name.

A definition also sees the definitions that were visible where it was declared. The registry
remembers these scopes; the first scope recorded for a definition stays.

## Main definitions

* `Place`, `Definition`, `Scope`: where a fragment stands, and what is visible somewhere.
* `Scope.layer`: an inner scope over an outer one.
* `Scope.resolve?`, `Lookup`: what a reference names, and a reference that was looked up.
* `Registry`: the scopes that definitions were declared in.
-/

namespace SchemaGrammar

/-- One step from a fragment to a sub-fragment. -/
inductive PlaceStep where
  | external (name : String)
  | property (key : String)
  | additional
  | items
  | leading (index : Nat)
  | oneOf (index : Nat)
  | anyOf (index : Nat)
  | definition (name : String)
deriving Repr, DecidableEq

/-- Where a fragment stands in its document, the innermost step first. -/
abbrev Place := List PlaceStep

/-- A fragment that has a name, and where it stands. -/
structure Definition where
  place : Place
  schema : Schema
deriving Repr

/-- The definitions visible at some place, by name. -/
abbrev Scope := Assoc Definition

namespace Scope

variable {ρ : Type}

/-- The inner definitions over the outer ones, which they hide. -/
def layer (outer inner : Assoc ρ) : Assoc ρ := outer.update inner

/-- Layering nothing changes nothing. -/
@[simp] theorem layer_nil (outer : Assoc ρ) : layer outer [] = outer := rfl

/-- The definitions of a fragment at `place`. -/
def ofFragment (place : Place) (s : Schema) : Scope :=
  s.ownDefinitions.map fun entry => (entry.1, ⟨.definition entry.1 :: place, entry.2⟩)

/-- Definitions that come from outside the document. -/
def ofExternal (definitions : Assoc Schema) : Scope :=
  definitions.map fun entry => (entry.1, ⟨[.external entry.1], entry.2⟩)

/-- What a reference names: the name that it gives, and the definition in scope under it. -/
def resolve? (scope : Scope) (text : String) : Option (String × Definition) :=
  (definitionName? text).bind fun name => (scope.get? name).map (name, ·)

theorem resolve?_of_get? {scope : Scope} {text name : String} {definition : Definition}
    (hname : definitionName? text = some name) (hget : scope.get? name = some definition) :
    scope.resolve? text = some (name, definition) := by
  rw [resolve?, hname, Option.bind_some, hget, Option.map_some]

theorem resolve?_eq_none {scope : Scope} {text : String}
    (h : ∀ name, definitionName? text = some name → scope.get? name = none) :
    scope.resolve? text = none := by
  cases hname : definitionName? text with
  | none => rw [resolve?, hname, Option.bind_none]
  | some name => rw [resolve?, hname, Option.bind_some, h name hname, Option.map_none]

end Scope

/-- A reference that was looked up: where it stands, its text, and what it was found to name. -/
structure Lookup where
  place : Place
  text : String
  found : Option (String × Definition)

/-- A definition is known by its name and its place. -/
abbrev DefinitionKey := String × Place

/-- For each definition that was declared somewhere, what `σ` says about the scope there. -/
structure Registry (π σ : Type) where
  entries : List ((String × π) × σ) := []
deriving Repr

namespace Registry

variable {π σ : Type} [DecidableEq π]

/-- The scope recorded for a definition. -/
def find? (r : Registry π σ) (key : String × π) : Option σ := go r.entries
where
  /-- The first entry for `key`. -/
  go : List ((String × π) × σ) → Option σ
    | [] => none
    | (known, scope) :: rest => if known = key then some scope else go rest

/-- Records `scope` for a definition, unless one is recorded. -/
def record (r : Registry π σ) (key : String × π) (scope : σ) : Registry π σ :=
  match r.find? key with
  | some _ => r
  | none => ⟨r.entries ++ [(key, scope)]⟩

/-- Records `scope` as the declaring scope of all the given definitions. -/
def register (r : Registry π σ) (keys : List (String × π)) (scope : σ) : Registry π σ :=
  keys.foldl (fun r key => r.record key scope) r

/-- The number of definitions that are recorded. -/
def size (r : Registry π σ) : Nat := r.entries.length

end Registry

/-- The keys of the definitions of a scope. -/
def Scope.definitionKeys (scope : Scope) : List DefinitionKey :=
  scope.map fun entry => (entry.1, entry.2.place)

/-- The registry of the scopes of one document. -/
abbrev ScopeRegistry := Registry Place Scope

/-- Records a scope as the declaring scope of its own definitions. -/
def ScopeRegistry.declare (r : ScopeRegistry) (scope : Scope) : ScopeRegistry :=
  r.register scope.definitionKeys scope

/-- Whether two scopes hold the same definitions in the same order. -/
def Scope.agree : Scope → Scope → Bool
  | [], [] => true
  | (name, definition) :: scope, (name', definition') :: scope' =>
    name == name' && definition.place == definition'.place && Scope.agree scope scope'
  | _, _ => false

/-- The definitions visible inside a definition that is referred to from `site`: those of the
site, hidden by those of the scope it was declared in. A scope over itself is itself. -/
def ScopeRegistry.visible (r : ScopeRegistry) (site : Scope) (key : DefinitionKey) : Scope :=
  let declared := (r.find? key).getD site
  if Scope.agree site declared then site else Scope.layer site declared

end SchemaGrammar
