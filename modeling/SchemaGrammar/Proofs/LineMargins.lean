import SchemaGrammar.Proofs.SingleLine

/-!
# How far entries are indented

The spaces that a line is indented by are counted with 32 bits. So there are less than
`UInt32.size` of them before an entry, whatever its level and the options are.

A text is read with the **margin** in hand: the number of spaces since the last line break, as long
as nothing else has been read. An entry is refused if the margin is wider than 32 bits can count. A
closing bracket never is, as brackets without entries may have the blanks of two levels between
them. No form leaves the words that are read from every narrow margin.

## Main definitions

* `Margin.read`: reads a text, unless an entry is indented too far.
* `Margin.entries`: the words that may follow any narrow margin.

## Main results

* `Margin.closedForms_entries`: what shapes make of such words.
* `spaces_lt_of_accepts`: how far an entry of an accepted text is indented.
-/

namespace SchemaGrammar

open Grammar Lexeme Json

namespace Margin

/-! ## Margins -/

/-- Whether there are as many spaces as 32 bits can count, or something else before a character. -/
def isNarrow (margin : Option Nat) : Bool := margin.all (· < UInt32.size)

/-- The margin after a character, unless it begins an entry that has too wide a margin. -/
def advance (margin : Option Nat) (c : Char) : Option (Option Nat) :=
  if c = '\n' then some (some 0)
  else if c = ' ' then some (margin.map (· + 1))
  else if beginsEntry c = true ∧ isNarrow margin = false then none
  else some none

/-- The margin after a text, unless an entry in it has too wide a margin. -/
def read (margin : Option Nat) (w : List Char) : Option (Option Nat) := w.foldlM advance margin

@[simp] theorem read_nil (margin : Option Nat) : read margin [] = some margin := rfl

theorem read_cons (margin : Option Nat) (c : Char) (w : List Char) :
    read margin (c :: w) = (advance margin c).bind (read · w) := rfl

theorem read_append (margin : Option Nat) (u w : List Char) :
    read margin (u ++ w) = (read margin u).bind (read · w) := List.foldlM_append

@[simp] theorem advance_lineBreak (margin : Option Nat) : advance margin '\n' = some (some 0) := rfl

@[simp] theorem advance_space (margin : Option Nat) :
    advance margin ' ' = some (margin.map (· + 1)) := rfl

theorem advance_of_beginsEntry (margin : Option Nat) {c : Char} (h : beginsEntry c = true) :
    advance margin c = if isNarrow margin then some none else none := by
  have hother : c ≠ '\n' ∧ c ≠ ' ' := by
    refine ⟨?_, ?_⟩
    · rintro rfl
      cases h
    · rintro rfl
      cases h
  cases hmargin : isNarrow margin <;> simp [advance, hother, h, hmargin]

/-! ## Blanks and lines -/

theorem read_spaces (n k : Nat) : read (some n) (List.replicate k ' ') = some (some (n + k)) := by
  induction k generalizing n with
  | zero => rfl
  | succ k ih =>
    rw [List.replicate_succ, read_cons, advance_space, Option.bind_some, Option.map_some, ih,
      Nat.add_right_comm, Nat.add_assoc]

/-- Characters that leave the same margin wherever they stand. -/
theorem read_replicate {c : Char} {after : Option Nat} (h : ∀ margin, advance margin c = some after)
    (margin : Option Nat) (k : Nat) :
    read margin (List.replicate k c) = some (if k = 0 then margin else after) := by
  induction k generalizing margin with
  | zero => rfl
  | succ k ih =>
    rw [List.replicate_succ, read_cons, h, Option.bind_some, ih, if_neg (Nat.succ_ne_zero k),
      ite_self]

theorem read_indentation {layout : Layout} {indent : List Char}
    (h : indent ∈ layout.indentations) :
    ∃ after, read (some 0) indent = some after ∧ isNarrow after = true := by
  have hindent : indent = List.replicate layout.padding ' ' ∨
      indent = List.replicate layout.depth '\t' := by
    unfold Layout.indentations at h
    split_ifs at h
    · exact .inr (List.mem_singleton.mp h)
    · exact List.mem_pair.mp h
  rcases hindent with rfl | rfl
  · exact ⟨_, read_spaces 0 _, by simpa [isNarrow] using layout.padding_lt⟩
  · refine ⟨_, read_replicate (fun _ => rfl) (some 0) _, ?_⟩
    split_ifs <;> rfl

/-- Blanks are read from every margin; inside a line, they leave a narrow one. -/
theorem read_blanks {layout : Layout} {b : List Char} (hb : b ∈ layout.blanks)
    (margin : Option Nat) :
    ∃ after, read margin b = some after ∧ (margin = none → isNarrow after = true) := by
  rcases hb with (rfl | rfl) | ⟨-, indent, hindent, rfl⟩
  · exact ⟨margin, rfl, fun h => h ▸ rfl⟩
  · exact ⟨margin.map (· + 1), rfl, fun h => h ▸ rfl⟩
  · obtain ⟨after, hafter, hnarrow⟩ := read_indentation hindent
    exact ⟨after, hafter, fun _ => hnarrow⟩

theorem read_lineWords {w : List Char} (hw : w ∈ lineWords) : read none w = some none := by
  induction w with
  | nil => rfl
  | cons c w ih =>
    obtain ⟨hc, hw⟩ := List.forall_mem_cons.mp hw
    have hbreak : c ≠ '\n' := by
      rintro rfl
      cases hc
    have hstep : advance none c = some none := by simp [advance, hbreak, isNarrow]
    rw [read_cons, hstep]
    exact ih hw

/-! ## Entries -/

/-- The words that may follow any narrow margin. -/
def entries : Language Char := {w | ∀ margin, isNarrow margin = true → read margin w = some none}

theorem leaf_le_entries {t : Terminal} (ht : t.isValue = true) : t.language ≤ entries := by
  intro w hw margin hmargin
  have hline := Terminal.language_le_lineWords ht hw
  obtain ⟨c, rest, hc, rfl⟩ := exists_cons_of_isValue (Terminal.isValue_of_mem ht hw)
  rw [read_cons, advance_of_beginsEntry margin hc, if_pos hmargin]
  exact read_lineWords (List.forall_mem_cons.mp hline).2

/-- Brackets around entries, or around none. -/
theorem brackets_mem_entries {opening closing : Char} (hopen : beginsEntry opening = true)
    (hclose : ∀ margin, advance margin closing = some none) {layout : Layout}
    {b w b' : List Char} (hb : b ∈ layout.descend.blanks)
    (hw : w = [] ∨ Row entries layout.descend.blanks w) (hb' : b' ∈ layout.blanks) :
    opening :: (b ++ w ++ b') ++ [closing] ∈ entries := by
  have hinside : ∃ after, read none (b ++ w) = some after := by
    rcases hw with rfl | hw
    · obtain ⟨after, hafter, -⟩ := read_blanks hb none
      exact ⟨after, by rw [List.append_nil, hafter]⟩
    · refine ⟨none, ?_⟩
      -- From entry to entry, the blanks before each of them leave a narrow margin.
      induction hw generalizing b with
      | one hw =>
        obtain ⟨after, hafter, hnarrow⟩ := read_blanks hb none
        rw [read_append, hafter]
        exact hw after (hnarrow rfl)
      | more hu hc _ ih =>
        obtain ⟨after, hafter, hnarrow⟩ := read_blanks hb none
        rw [read_append, hafter, Option.bind_some, read_append, hu after (hnarrow rfl)]
        exact ih hc
  intro margin hmargin
  obtain ⟨after, hafter⟩ := hinside
  obtain ⟨last, hlast, -⟩ := read_blanks hb' after
  rw [List.cons_append, read_cons, advance_of_beginsEntry margin hopen, if_pos hmargin,
    Option.bind_some, read_append, read_append, hafter, Option.bind_some, hlast, Option.bind_some,
    read_cons, hclose]
  rfl

theorem closedForms_entries (lines : Bool) : ClosedForms lines entries entries where
  leaf := leaf_le_entries
  list _ hb hw hb' := brackets_mem_entries (by decide) (fun _ => rfl) hb hw hb'
  object _ hb hw hb' := brackets_mem_entries (by decide) (fun _ => rfl) hb hw hb'
  entry _ _ hk hg hv := by
    intro margin hmargin
    rw [read_append, hk margin hmargin]
    rcases hg with rfl | rfl
    · exact hv none rfl
    · exact hv none rfl

end Margin

open Margin

/-! ## Grammars -/

/-- **Entries are indented by less than `UInt32.size` spaces**, whatever the schema and the options
are: this bounds the spaces between a line break and an entry that follows it. -/
theorem spaces_lt_of_accepts {s : Schema} {external : Assoc Schema} {options : Options}
    {grammar text : String} (h : grammarText s external options = .ok grammar)
    (ha : Accepts grammar text) {before after : List Char} {n : Nat} {c : Char}
    (htext : text.toList = before ++ '\n' :: (List.replicate n ' ' ++ c :: after))
    (hc : beginsEntry c = true) : n < UInt32.size := by
  obtain ⟨u, hentry, k, -, hpadded⟩ := (closedForms_entries _).exists_of_accepts h ha
  have hlast : read none text.toList = some (if k = 0 then none else some 0) := by
    rw [hpadded, read_append, hentry none rfl, Option.bind_some]
    exact read_replicate (fun _ => rfl) none k
  rw [htext, read_append, Option.bind_eq_some_iff] at hlast
  obtain ⟨margin, -, hlast⟩ := hlast
  rw [read_cons, advance_lineBreak, Option.bind_some, read_append, read_spaces, Option.bind_some,
    read_cons, advance_of_beginsEntry _ hc, Nat.zero_add] at hlast
  by_contra hwide
  have hnarrow : isNarrow (some n) = false := by simpa [isNarrow] using hwide
  rw [hnarrow] at hlast
  cases hlast

end SchemaGrammar
