import SchemaGrammar.Terminal.Basic

/-!
# Shapes of documents

A shape says what a document may look like: a leaf, a list, an object, one of several shapes, or
what a definition stands for. Shapes refer to each other by their position in a table, so a
definition that contains itself is a cycle in the table.

## Main definitions

* `Shape`, `Shapes`: one shape, and the table.
* `Shapes.push`, `Shapes.setTarget`: the ways a table grows.
-/

namespace SchemaGrammar

/-- The position of a shape in its table. -/
abbrev ShapeId := Nat

/-- A list: some leading items by position, then any number of further ones. The bounds count the
leading items too. -/
structure ArrayShape where
  leading : List ShapeId
  items : ShapeId
  least : Nat
  most : Option Nat
  layout : Layout
deriving Repr, DecidableEq

/-- A declared member of an object. -/
structure Property where
  key : String
  value : ShapeId
  required : Bool
deriving Repr, DecidableEq

/-- An object: declared members in order, and the shape of other members if they are allowed. -/
structure ObjectShape where
  properties : List Property
  additional : Option ShapeId
  layout : Layout
deriving Repr, DecidableEq

/-- What a document may look like. -/
inductive Shape where
  | terminal (t : Terminal)
  | array (shape : ArrayShape)
  | object (shape : ObjectShape)
  | enumeration (members : List ShapeId)
  | union (members : List ShapeId)
  | reference (name : String) (target : Option ShapeId)
  | anyJson (layout : Layout)
deriving Repr

/-- Whether a shape is put together from others, references aside. -/
def Shape.isComposite : Shape → Bool
  | .array _ | .object _ | .enumeration _ | .union _ => true
  | _ => false

/-- A table of shapes. -/
structure Shapes where
  entries : Array Shape := #[]
deriving Repr

namespace Shapes

/-- The number of shapes. -/
def size (s : Shapes) : Nat := s.entries.size

/-- The shape at a position. -/
def get? (s : Shapes) (id : ShapeId) : Option Shape := s.entries[id]?

/-- Whether the shape at a position is put together from others. -/
def isComposite (s : Shapes) (id : ShapeId) : Bool := (s.get? id).any Shape.isComposite

/-- The table with one more shape, and the position of that shape. -/
def push (s : Shapes) (shape : Shape) : ShapeId × Shapes := (s.size, ⟨s.entries.push shape⟩)

/-- Gives a reference its target. A target that is already there stays. -/
def setTarget (s : Shapes) (id target : ShapeId) : Shapes :=
  match s.get? id with
  | some (.reference name none) => ⟨s.entries.setIfInBounds id (.reference name (some target))⟩
  | _ => s

@[simp] theorem size_push (s : Shapes) (shape : Shape) : (s.push shape).2.size = s.size + 1 := by
  simp [push, size]

theorem get?_push_self (s : Shapes) (shape : Shape) :
    (s.push shape).2.get? (s.push shape).1 = some shape := by
  simp [push, get?, size]

theorem get?_push_of_lt {s : Shapes} {id : ShapeId} (h : id < s.size) (shape : Shape) :
    (s.push shape).2.get? id = s.get? id := by
  simp only [size] at h
  simp [push, get?, Array.getElem?_push, Nat.ne_of_lt h]

@[simp] theorem size_setTarget (s : Shapes) (id target : ShapeId) :
    (s.setTarget id target).size = s.size := by
  unfold setTarget
  split <;> simp [size]

end Shapes

end SchemaGrammar
