import SchemaGrammar.Check.Checker
import SchemaGrammar.Shape.Basic
import SchemaGrammar.Proofs.Scoping

/-!
# Which values have a shape

A table of shapes read as predicates on values. A literal asks for an equal value, a list for a
number of items and for items that have their shapes, an object for its required members, for
declared members that have their shapes and for others that have the shape of undeclared ones, if
these are allowed at all. A choice asks for one of its members and a reference for its target. As
shapes may be cyclic, the predicates are the least solution of these equations.

## Main definitions

* `Terminal.admits`: the values of a leaf.
* `Shape.Holds`: the equations.
* `Shapes.Admits`: their least solution.
-/

namespace SchemaGrammar

open Json (Value)

/-- Whether a leaf allows a value. -/
def Terminal.admits : Terminal → Value → Bool
  | .null, .null => true
  | .booleanLiteral b, .bool b' => b == b'
  | .boolean, .bool _ => true
  | .numberLiteral n, .number n' => n.same n'
  | .number true, .number _ => true
  | .number false, .number (.integer _) => true
  | .stringLiteral text, .string text' => text == text'
  | .string bounds, .string text => Checking.within bounds.least bounds.most text.length
  | .format f, .string text => f.accepts text
  | _, _ => false

/-- The shape of the item at a position of a list. -/
def ArrayShape.itemAt (shape : ArrayShape) (i : Nat) : ShapeId :=
  shape.leading[i]?.getD shape.items

/-- Whether a value has a shape, given which values the shapes that it refers to have. -/
def Shape.Holds (X : ShapeId → Value → Prop) : Shape → Value → Prop
  | .terminal t, v => t.admits v = true
  | .array shape, .array values =>
    Checking.within shape.least shape.most values.length = true ∧
      ∀ i v, values[i]? = some v → X (shape.itemAt i) v
  | .object shape, .object members =>
    (∀ p ∈ shape.properties, p.required = true → Assoc.contains members p.key = true) ∧
    (∀ p ∈ shape.properties, ∀ v, Assoc.get? p.key members = some v → X p.value v) ∧
    ∀ m ∈ members, m.1 ∉ shape.properties.map Property.key →
      ∃ extra, shape.additional = some extra ∧ X extra m.2
  | .enumeration ids, v | .union ids, v => ∃ id ∈ ids, X id v
  | .reference _ target, v => ∃ id, target = some id ∧ X id v
  | .anyJson _, _ => True
  | _, _ => False

theorem Shape.Holds.mono {X Y : ShapeId → Value → Prop} (h : ∀ id v, X id v → Y id v)
    {shape : Shape} {v : Value} (hs : shape.Holds X v) : shape.Holds Y v := by
  unfold Shape.Holds at hs ⊢
  split at hs
  · exact hs
  · exact ⟨hs.1, fun i v hv => h _ _ (hs.2 i v hv)⟩
  · obtain ⟨hrequired, hdeclared, hmore⟩ := hs
    refine ⟨hrequired, fun p hp v hv => h _ _ (hdeclared p hp v hv), fun m hm hkey => ?_⟩
    obtain ⟨extra, hextra, hx⟩ := hmore m hm hkey
    exact ⟨extra, hextra, h _ _ hx⟩
  · obtain ⟨id, hid, hx⟩ := hs
    exact ⟨id, hid, h _ _ hx⟩
  · obtain ⟨id, hid, hx⟩ := hs
    exact ⟨id, hid, h _ _ hx⟩
  · obtain ⟨id, hid, hx⟩ := hs
    exact ⟨id, hid, h _ _ hx⟩
  · trivial
  · exact hs

namespace Shapes

/-- The equations of a table as a monotone operator. -/
def meaningOperator (shapes : Shapes) : (ShapeId → Value → Prop) →o (ShapeId → Value → Prop) where
  toFun X id v := ∃ shape, shapes.get? id = some shape ∧ shape.Holds X v
  monotone' := by
    rintro X Y h id v ⟨shape, hget, hs⟩
    exact ⟨shape, hget, hs.mono h⟩

/-- The values that have the shape at a position: the least solution of the equations. -/
def Admits (shapes : Shapes) : ShapeId → Value → Prop := OrderHom.lfp shapes.meaningOperator

section

variable {shapes : Shapes} {id : ShapeId} {v : Value}

theorem admits_iff {shape : Shape} (hget : shapes.get? id = some shape) :
    shapes.Admits id v ↔ shape.Holds shapes.Admits v := by
  have h : shapes.Admits id v ↔ ∃ shape, shapes.get? id = some shape ∧ shape.Holds shapes.Admits v :=
    iff_of_eq (congrFun (congrFun shapes.meaningOperator.map_lfp id) v).symm
  rw [h, hget]
  simp

/-- Induction over the finite argument that a value has a shape. -/
theorem Admits.induction {Y : ShapeId → Value → Prop}
    (h : ∀ id shape v, shapes.get? id = some shape → shape.Holds Y v → Y id v)
    (hv : shapes.Admits id v) : Y id v := by
  have hle : shapes.Admits ≤ Y := by
    refine OrderHom.lfp_le _ ?_
    rintro id v ⟨shape, hget, hs⟩
    exact h id shape v hget hs
  exact hle id v hv

end

end Shapes

end SchemaGrammar
