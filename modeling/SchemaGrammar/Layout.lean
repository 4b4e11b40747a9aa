/-!
# Layout of nested values

How a value may be laid out over lines: whether line breaks are allowed at all, how many spaces
one level of nesting is indented by, and at which level the value stands. The spaces of a line are
counted with 32 bits, so a line far enough in has fewer of them than its level asks for.
-/

namespace SchemaGrammar

/-- The layout at one place of a document. -/
structure Layout where
  newLines : Bool
  padSpaces : Nat
  depth : Nat
deriving Repr, DecidableEq, Inhabited

namespace Layout

/-- The layout one level further in. -/
def descend (l : Layout) : Layout := { l with depth := l.depth + 1 }

/-- The same level on a single line. -/
def flat (l : Layout) : Layout := { l with newLines := false }

/-- How many spaces the level is indented by, counted with 32 bits. -/
def padding (l : Layout) : Nat := l.depth * l.padSpaces % UInt32.size

theorem padding_lt (l : Layout) : l.padding < UInt32.size := Nat.mod_lt _ (by decide)

theorem padding_eq_of_lt {l : Layout} (h : l.depth * l.padSpaces < UInt32.size) :
    l.padding = l.depth * l.padSpaces :=
  Nat.mod_eq_of_lt h

theorem padding_eq_zero {l : Layout} (h : l.depth = 0) : l.padding = 0 := by
  rw [padding, h, Nat.zero_mul, Nat.zero_mod]

@[simp] theorem depth_descend (l : Layout) : l.descend.depth = l.depth + 1 := rfl
@[simp] theorem newLines_descend (l : Layout) : l.descend.newLines = l.newLines := rfl
@[simp] theorem padSpaces_descend (l : Layout) : l.descend.padSpaces = l.padSpaces := rfl
@[simp] theorem newLines_flat (l : Layout) : l.flat.newLines = false := rfl
@[simp] theorem depth_flat (l : Layout) : l.flat.depth = l.depth := rfl

end Layout

end SchemaGrammar
