import SchemaGrammar.Check.Checker
import SchemaGrammar.Proofs.ScalarTokens
import SchemaGrammar.Proofs.SeparatedTexts

/-!
# Dates and times, checked and written

A format is described twice: by a pattern that strings are checked with, and by a body that is
written into grammars. Where the pattern asks for any digit, it takes the digits of all scripts, and
the body takes those from zero to nine. This is the only difference: among the strings that pass a
check, those whose digits are all from zero to nine are the words of the body.

The words of a format stand for themselves between quotes. So the text of a string is derived exactly
if the string itself is a word of the format.

## Main results

* `TextFormat.mem_language_iff`: the words of a format, among the strings that have it.
* `Json.stringText_mem_quoted_iff`: when the text of a string is a quoted word.
* `derivesText_formatBody_iff`: which strings are derived, and which pass a check.
-/

namespace SchemaGrammar

open Grammar Json

/-! ## Words of a format -/

theorem Pattern.language_le_spelled (p : Pattern) :
    p.language ≤ Lexeme.spelled fun c => c.toNat < 128 := by
  induction p with
  | char allowed =>
    rintro _ ⟨c, ⟨-, hascii⟩, rfl⟩
    exact List.forall_mem_singleton.mpr (decide_eq_true hascii)
  | follow first second ihf ihs => exact Lexeme.mul_le_spelled ihf ihs
  | either left right ihl ihr => exact Lexeme.add_le_spelled ihl ihr
  | optional inner ih => exact Lexeme.add_le_spelled Lexeme.one_le_spelled ih

/-- **The words of a format are the strings that have it and no digits of other scripts.** -/
theorem TextFormat.mem_language_iff {f : TextFormat} {text : String} :
    text.toList ∈ f.language ↔
      f.accepts text = true ∧
        ∀ c ∈ text.toList, Text.isDecimalDigit c = true → c.isDigit = true := by
  constructor
  · intro hw
    have hdigits : ∀ c ∈ text.toList, Text.isDecimalDigit c = true → c.isDigit = true := by
      intro c hc
      rw [← f.language_pattern] at hw
      exact Text.isDigit_of_isDecimalDigit (of_decide_eq_true (f.pattern.language_le_spelled hw c hc))
    exact ⟨(TextFormat.accepts_iff hdigits).mpr hw, hdigits⟩
  · rintro ⟨haccepts, hdigits⟩
    exact (TextFormat.accepts_iff hdigits).mp haccepts

/-! ## Texts of strings -/

theorem Json.names_of_spelled {w : List Char} (h : w ∈ Lexeme.spelled Lexeme.isPlainChar) :
    Names ('"' :: w ++ ['"']) (String.ofList w) := by
  refine ⟨w, w, ?_, rfl, rfl⟩
  induction w with
  | nil => exact .nil
  | cons c w ih =>
    obtain ⟨hc, hrest⟩ := List.forall_mem_cons.mp h
    obtain ⟨_, ⟨hquote, hslash, -, hcontrol⟩, heq⟩ := Lexeme.mem_plain_of_isPlainChar hc
    cases heq
    exact .cons (.plain hcontrol hquote hslash) (ih hrest)

/-- **Where characters stand for themselves**, the text of a string is a quoted word exactly if the
string is the word. -/
theorem Json.stringText_mem_quoted_iff {l : Language Char}
    (hl : l ≤ Lexeme.spelled Lexeme.isPlainChar) {text : String} :
    (stringText text).toList ∈ Lexeme.quoted l ↔ text.toList ∈ l := by
  refine ⟨fun h => ?_, stringText_mem_quoted hl⟩
  -- A text names one string only.
  obtain ⟨w, hw, heq⟩ := Lexeme.mem_quoted.mp h
  have hnames := names_of_spelled (hl hw)
  rw [← heq] at hnames
  rw [(names_stringText text).unique hnames, String.toList_ofList]
  exact hw

theorem derivesText_formatBody {rules : Assoc Body} {f : TextFormat} {text : String} :
    DerivesText rules (formatBody f).text (stringText text).toList ↔ text.toList ∈ f.language := by
  have hspells := spells_formatBody f
  rw [derivesText_iff hspells.segment.readable, hspells.language,
    stringText_mem_quoted_iff f.language_le_spelled]

/-! ## Checks and derivations -/

theorem Checking.string_eq_ok_iff {s : Schema} {f : TextFormat} (hf : s.textFormat? = some f)
    (text : String) (path : Path) (st : Checking) :
    ((Checking.string s text path).run st).1 = .ok () ↔ f.accepts text = true := by
  have hstring : Checking.string s text path =
      if f.accepts text then pure () else Checking.fail path (.wrongFormat f text) := by
    rw [Checking.string, hf]
  rw [hstring]
  split_ifs with haccepts
  · exact iff_of_true rfl haccepts
  · exact iff_of_false (by rintro ⟨⟩) haccepts

/-- **Which strings of a format are derived, and which pass a check.** What is written for a format
derives the text of a string exactly if the string passes the check for the format and all digits in
it are from zero to nine. -/
theorem derivesText_formatBody_iff {s : Schema} {f : TextFormat} (hf : s.textFormat? = some f)
    (text : String) (path : Path) (st : Checking) (rules : Assoc Body) :
    DerivesText rules (formatBody f).text (stringText text).toList ↔
      ((Checking.string s text path).run st).1 = .ok () ∧
        ∀ c ∈ text.toList, Text.isDecimalDigit c = true → c.isDigit = true := by
  rw [derivesText_formatBody, Checking.string_eq_ok_iff hf, TextFormat.mem_language_iff]

/-- The schema of dates. -/
def dateSchema : Schema := { types := some (.one .string), format := some "date" }

/-- A leap day is derived and passes the check. -/
theorem derivesText_dateSchema_leapDay : dateSchema.textFormat? = some .date ∧
    DerivesText [] (formatBody .date).text (stringText "2024-02-29").toList ∧
    ((Checking.string dateSchema "2024-02-29" []).run {}).1 = .ok () := by
  have hpass : ((Checking.string dateSchema "2024-02-29" []).run {}).1 = .ok () := by
    rw [Checking.string_eq_ok_iff (s := dateSchema) (f := .date) rfl]
    decide
  have hdash : Text.isDecimalDigit '-' = false := by decide
  refine ⟨rfl, ?_, hpass⟩
  exact (derivesText_formatBody_iff rfl "2024-02-29" [] {} []).mpr ⟨hpass, by simp [hdash]⟩

/-- A year in the digits of another script passes the check, and no rules derive it. -/
theorem not_derivesText_dateSchema :
    ((Checking.string dateSchema "٢٠٢٤-01-01" []).run {}).1 = .ok () ∧
      ∀ rules, ¬ DerivesText rules (formatBody .date).text (stringText "٢٠٢٤-01-01").toList := by
  constructor
  · rw [Checking.string_eq_ok_iff (s := dateSchema) (f := .date) rfl]
    decide
  · intro rules h
    obtain ⟨-, hdigits⟩ := TextFormat.mem_language_iff.mp (derivesText_formatBody.mp h)
    have hfirst : ('٢' : Char).isDigit = true := hdigits '٢' (by simp) (by decide)
    revert hfirst
    decide

end SchemaGrammar
