import SchemaGrammar.Definitions.Scope

/-!
# Shared scopes

A table of scopes that are known by handles, so that one scope can be in use at many places
without being copied. Layering an empty scope over another, or a scope over itself, gives back
the handle that was there. The scopes behind the handles are those that lowering and checking go
through, which is proved where scopes are compared with the places of a document.
-/

namespace SchemaGrammar

/-- Scopes by handle. -/
structure ScopeTable (ρ : Type) where
  scopes : Array (Assoc ρ) := #[]
deriving Repr

/-- The position of a scope in its table. -/
abbrev ScopeHandle := Nat

namespace ScopeTable

variable {ρ : Type}

/-- The scope of a handle; an unknown handle has none. -/
def get (t : ScopeTable ρ) (h : ScopeHandle) : Assoc ρ := t.scopes[h]?.getD []

/-- Adds a scope. -/
def add (t : ScopeTable ρ) (scope : Assoc ρ) : ScopeHandle × ScopeTable ρ :=
  (t.scopes.size, ⟨t.scopes.push scope⟩)

/-- The inner definitions over the outer ones. An empty inner scope adds nothing. -/
def layer (t : ScopeTable ρ) (outer inner : ScopeHandle) : ScopeHandle × ScopeTable ρ :=
  if (t.get inner).isEmpty then (outer, t) else t.add (Scope.layer (t.get outer) (t.get inner))

/-- The definitions visible inside a definition: the scope it was declared in over the one it is
referred to from. -/
def visible (t : ScopeTable ρ) (site declared : ScopeHandle) : ScopeHandle × ScopeTable ρ :=
  if site = declared then (site, t) else t.layer site declared

/-- The table has room for the handles that layering gives. -/
theorem get_layer (t : ScopeTable ρ) (outer inner : ScopeHandle) :
    (t.layer outer inner).2.get (t.layer outer inner).1 =
      Scope.layer (t.get outer) (t.get inner) := by
  unfold layer
  split
  · next h => rw [List.isEmpty_iff.mp h, Scope.layer_nil]
  · simp [add, get]

end ScopeTable

end SchemaGrammar
