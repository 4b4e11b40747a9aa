import SchemaGrammar.Text.CombiningMark
import SchemaGrammar.Text.Unassigned

/-!
# Characters that do not print on their own

The characters that a quoted text spells by their code: those that leave no trace in a line,
marks that combine with the character before them, and code points that no character has been
given to. Letters, digits, symbols and ideographs print as they are.
-/

namespace SchemaGrammar

namespace Text

/-- The ranges of characters that leave no trace, both ends included, in increasing order:
controls, format characters, separators other than the space, fillers, and private-use
characters, which have no agreed shape. -/
def invisibleRanges : List (Nat × Nat) :=
  [(0x0, 0x1F), (0x7F, 0xA0), (0xAD, 0xAD), (0x600, 0x605), (0x61C, 0x61C), (0x6DD, 0x6DD),
   (0x70F, 0x70F), (0x890, 0x891), (0x8E2, 0x8E2), (0x115F, 0x1160), (0x1680, 0x1680),
   (0x180E, 0x180E), (0x2000, 0x200F), (0x2028, 0x202F), (0x205F, 0x2064), (0x2066, 0x206F),
   (0x3000, 0x3000), (0x3164, 0x3164), (0xE000, 0xF8FF), (0xFEFF, 0xFEFF), (0xFFA0, 0xFFA0),
   (0xFFF9, 0xFFFB), (0x110BD, 0x110BD), (0x110CD, 0x110CD), (0x13430, 0x1343F), (0x1BCA0, 0x1BCA3),
   (0x1D173, 0x1D17A), (0xE0001, 0xE0001), (0xE0020, 0xE007F), (0xF0000, 0xFFFFD),
   (0x100000, 0x10FFFD)]

/-- Whether the code point of `c` is in one of the ranges. -/
def inRanges (ranges : List (Nat × Nat)) (c : Char) : Bool :=
  ranges.any fun range => range.1 ≤ c.toNat && c.toNat ≤ range.2

/-- Whether a quoted text spells `c` by its code. From the space to the tilde all characters
print. -/
def isUnprintable (c : Char) : Bool :=
  if 0x20 ≤ c.toNat && c.toNat < 0x7F then false
  else inRanges invisibleRanges c || inRanges combiningRanges c || inRanges unassignedRanges c

end Text

end SchemaGrammar
