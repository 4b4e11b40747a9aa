import SchemaGrammar.Proofs.JsonSyntax
import SchemaGrammar.Proofs.TrailingLineBreaks

/-!
# Documents on a single line

A grammar that allows no line breaks inside the document derives documents of one line each. Nothing
below the space is derived: the blanks are at most one space, the characters of strings leave out
all controls, and a control in a property name or in a literal is written as an escape. Only the
line breaks after the document are left.

No form leaves the words without such characters: it is enough to see that of leaves, of the blanks
and of what brackets make of such words.

## Main definitions

* `Lexeme.isInline`, `Lexeme.lineWords`: the characters that may stand inside a line, and words of
  them.

## Main results

* `closedForms_lineWords`: what shapes without line breaks make of words on one line.
* `inline_of_accepts`: the texts of a grammar without line breaks.
-/

namespace SchemaGrammar

open Grammar
open scoped Computability

namespace Lexeme

/-- Whether a character may stand inside a line: it is not below the space. -/
def isInline (c : Char) : Bool := 0x20 ≤ c.toNat

/-- The words of characters that may stand inside a line. -/
abbrev lineWords : Language Char := spelled isInline

/-! ## Scalars -/

section

variable {p : Char → Bool} {a : Language Char}

theorem kstar_le_spelled (ha : a ≤ spelled p) : a∗ ≤ spelled p := by
  rintro _ ⟨words, rfl, hwords⟩ c hc
  obtain ⟨w, hw, hc⟩ := List.mem_flatten.mp hc
  exact ha (hwords w hw) c hc

theorem optional_le_spelled (ha : a ≤ spelled p) : 1 + a ≤ spelled p :=
  add_le_spelled one_le_spelled ha

theorem quoted_le_lineWords (ha : a ≤ lineWords) : quoted a ≤ lineWords :=
  mul_le_spelled (mul_le_spelled (word_le_spelled (by decide)) ha) (word_le_spelled (by decide))

end

theorem spelled_plain_le_lineWords : spelled isPlainChar ≤ lineWords := by
  intro w hw c hc
  have hplain := hw c hc
  simp only [isPlainChar, Bool.and_eq_true] at hplain
  exact hplain.2

theorem between_le_lineWords {first last : Char} (h : 0x20 ≤ first.toNat) :
    between first last ≤ lineWords := by
  rintro _ ⟨c, ⟨hlow, -⟩, rfl⟩
  exact List.forall_mem_singleton.mpr (decide_eq_true (h.trans hlow))

theorem digits_le_lineWords : digits ≤ lineWords :=
  mul_le_spelled (between_le_lineWords (by decide))
    (kstar_le_spelled (between_le_lineWords (by decide)))

theorem integer_le_lineWords : integer ≤ lineWords :=
  mul_le_spelled (optional_le_spelled (word_le_spelled (by decide)))
    (add_le_spelled (between_le_lineWords (by decide))
      (mul_le_spelled (between_le_lineWords (by decide))
        (kstar_le_spelled (between_le_lineWords (by decide)))))

theorem number_le_lineWords : number ≤ lineWords := by
  have hfraction : 1 + word "." * digits ≤ lineWords :=
    optional_le_spelled (mul_le_spelled (word_le_spelled (by decide)) digits_le_lineWords)
  have hexponent : 1 + among "eE" * (1 + among "-+") * digits ≤ lineWords :=
    optional_le_spelled (mul_le_spelled (mul_le_spelled (among_le_spelled (by decide))
      (optional_le_spelled (among_le_spelled (by decide)))) digits_le_lineWords)
  exact mul_le_spelled (mul_le_spelled integer_le_lineWords hfraction) hexponent

theorem stringUnit_le_lineWords : stringUnit ≤ lineWords := by
  have hplain : plain ≤ lineWords := by
    rintro _ ⟨c, ⟨-, -, -, hc⟩, rfl⟩
    exact List.forall_mem_singleton.mpr (decide_eq_true (not_lt.mp hc))
  have hhex : hexDigit ≤ lineWords :=
    add_le_spelled (add_le_spelled (between_le_lineWords (by decide))
      (between_le_lineWords (by decide))) (between_le_lineWords (by decide))
  exact add_le_spelled
    (add_le_spelled hplain (mul_le_spelled (word_le_spelled (by decide))
      (among_le_spelled (by decide))))
    (mul_le_spelled (word_le_spelled (by decide)) (pow_le_spelled hhex 4))

/-- Whatever a string holds, its text has no control in it. -/
theorem stringText_le_lineWords (s : String) : word (Json.stringText s) ≤ lineWords := by
  have hescaped : ∀ c : Char, Json.escapedChar c ∈ lineWords := by
    intro c
    by_cases hdelete : c = '\x7f'
    · rw [hdelete]
      exact List.all_eq_true.mp (by decide)
    · exact stringUnit_le_lineWords (Json.escapedChar_mem hdelete)
  rintro _ rfl c hc
  rw [Json.stringText_toList] at hc
  rcases List.mem_append.mp hc with hc | hc
  · rcases List.mem_append.mp hc with hc | hc
    · rw [List.mem_singleton.mp hc]
      decide
    · obtain ⟨w, hw, hc⟩ := List.mem_flatten.mp hc
      obtain ⟨d, -, rfl⟩ := List.mem_map.mp hw
      exact hescaped d c hc
  · rw [List.mem_singleton.mp hc]
    decide

end Lexeme

open Lexeme

theorem string_le_lineWords (bounds : LengthBounds) :
    (Terminal.string bounds).language ≤ lineWords := by
  refine quoted_le_lineWords ?_
  rintro w ⟨k, -, hw⟩
  exact pow_le_spelled stringUnit_le_lineWords k hw

/-- The words of a leaf that is a value are on one line. -/
theorem Terminal.language_le_lineWords {t : Terminal} (ht : t.isValue = true) :
    t.language ≤ lineWords := by
  cases t with
  | null => exact word_le_spelled (by decide)
  | booleanLiteral b => cases b <;> exact word_le_spelled (by decide)
  | boolean => exact add_le_spelled (word_le_spelled (by decide)) (word_le_spelled (by decide))
  | numberLiteral n =>
    rintro _ rfl
    exact number_le_lineWords n.text_mem
  | number fractional =>
    cases fractional with
    | false => exact integer_le_lineWords
    | true => exact number_le_lineWords
  | stringLiteral text => exact stringText_le_lineWords text
  | string bounds => exact string_le_lineWords bounds
  | format f => exact quoted_le_lineWords (f.language_le_spelled.trans spelled_plain_le_lineWords)
  | verbatim text => cases ht
  | whitespace layout => cases ht
  | stringChar => cases ht

/-- Without line breaks, blanks are at most a space. -/
theorem Layout.blanks_le_lineWords {l : Layout} (h : l.newLines = false) :
    l.blanks ≤ lineWords := by
  rintro w ((rfl | rfl) | ⟨hlines, -⟩)
  · exact List.forall_mem_nil _
  · exact List.forall_mem_singleton.mpr (by decide)
  · rw [h] at hlines
    cases hlines

/-! ## Containers -/

/-- Brackets around entries on one line. -/
theorem brackets_mem_lineWords {opening closing : Char} (hopen : isInline opening = true)
    (hclose : isInline closing = true) {layout : Layout} (hflat : layout.newLines = false)
    {b w b' : List Char} (hb : b ∈ layout.descend.blanks)
    (hw : w = [] ∨ Row lineWords layout.descend.blanks w) (hb' : b' ∈ layout.blanks) :
    opening :: (b ++ w ++ b') ++ [closing] ∈ lineWords := by
  have hinner : layout.descend.blanks ≤ lineWords := Layout.blanks_le_lineWords hflat
  have hrow : w ∈ lineWords := by
    rcases hw with rfl | hw
    · exact List.forall_mem_nil _
    · induction hw with
      | one hw => exact hw
      | more hu hc _ ih =>
        exact List.forall_mem_append.mpr ⟨hu, List.forall_mem_cons.mpr
          ⟨by decide, List.forall_mem_append.mpr ⟨hinner hc, ih⟩⟩⟩
  have hinside : ∀ c ∈ b ++ w ++ b', isInline c = true :=
    List.forall_mem_append.mpr ⟨List.forall_mem_append.mpr ⟨hinner hb, hrow⟩,
      Layout.blanks_le_lineWords hflat hb'⟩
  exact List.forall_mem_cons.mpr ⟨hopen, List.forall_mem_append.mpr
    ⟨hinside, List.forall_mem_singleton.mpr hclose⟩⟩

/-- No form leaves the words on one line, where there are no line breaks. -/
theorem closedForms_lineWords {lines : Bool} (h : lines = false) :
    ClosedForms lines lineWords lineWords where
  leaf := Terminal.language_le_lineWords
  list hlines hb hw hb' :=
    brackets_mem_lineWords (by decide) (by decide) (by simpa [h] using hlines) hb hw hb'
  object hlines hb hw hb' :=
    brackets_mem_lineWords (by decide) (by decide) (by simpa [h] using hlines) hb hw hb'
  entry {name k g v} _ _ hk hg hv := by
    have hgap : ∀ c ∈ g, isInline c = true := by
      rcases hg with rfl | rfl
      · exact List.forall_mem_nil _
      · exact List.forall_mem_singleton.mpr (by decide)
    exact List.forall_mem_append.mpr ⟨hk, List.forall_mem_cons.mpr
      ⟨by decide, List.forall_mem_append.mpr ⟨hgap, hv⟩⟩⟩

/-! ## Grammars -/

/-- **Without line breaks inside the document, a text is one line**: it has no character below the
space, and at most as many line breaks after it as were asked for. -/
theorem inline_of_accepts {s : Schema} {external : Assoc Schema} {options : Options}
    {grammar text : String} (hflat : options.allowNewLines = false)
    (h : grammarText s external options = .ok grammar) (ha : Accepts grammar text) :
    ∃ line k, (∀ c ∈ line.toList, 0x20 ≤ c.toNat) ∧ k ≤ options.trailingNewLines ∧
      text = withLineBreaks line k := by
  obtain ⟨u, hline, k, hk, htext⟩ := (closedForms_lineWords hflat).exists_of_accepts h ha
  refine ⟨String.ofList u, k, ?_, hk, ?_⟩
  · rw [String.toList_ofList]
    exact fun c hc => of_decide_eq_true (hline c hc)
  · rwa [eq_withLineBreaks_iff, String.toList_ofList]

/-- Control characters in a property name, in a constant and among the members of an enumeration. -/
def controlSchema : Schema :=
  { types := some (.one .object)
    properties := some
      [("a\nb", { constant := some (.string "\t\x01") }),
       ("c", { enumeration := some [.string "\r\n", .null] })]
    additional := some (.allowed true) }

/-- A document that has them all, and another in a free-form member. -/
def controlDocument : Json.Value :=
  .object [("a\nb", .string "\t\x01"), ("c", .string "\r\n"), ("d", .array [.string "\x1f"])]

theorem inline_controlDocument : ∃ grammar,
    grammarText controlSchema [] ⟨false, 4, 1⟩ = .ok grammar ∧
      Accepts grammar controlDocument.text ∧
      ∃ line k, (∀ c ∈ line.toList, 0x20 ≤ c.toNat) ∧ k ≤ 1 ∧
        controlDocument.text = withLineBreaks line k := by
  obtain ⟨grammar, hg⟩ : ∃ grammar, grammarText controlSchema [] ⟨false, 4, 1⟩ = .ok grammar :=
    eq_ok_of_isOk (by decide +kernel)
  obtain ⟨lowered, hlower, haccepts⟩ := accepts_of_mem_language hg
  have hdistinct : DistinctNames controlSchema [] :=
    ⟨List.nodup_nil, by decide +kernel, List.forall_mem_nil _⟩
  have hscoped : LexicallyScoped controlSchema [] := ⟨by decide +kernel, List.forall_mem_nil _⟩
  have hvalid : validateUnder orderly controlSchema [] controlDocument = .ok () :=
    (eq_ok_of_isOk (by decide +kernel)).choose_spec
  have ha : Accepts grammar controlDocument.text :=
    haccepts _ (letters_mem_language_of_validateUnder hdistinct hscoped hlower hvalid
      (by decide +kernel))
  exact ⟨grammar, hg, ha, inline_of_accepts rfl hg ha⟩

end SchemaGrammar
