import SchemaGrammar.Proofs.ShapeLanguage

/-!
# Bodies of leaves

The body that is written for a leaf matches exactly the words of the leaf. All bodies here are
fixed up to a length, a depth or a text, so the proofs calculate: counts are powers, classes are
sets of one-character words, and sequences are products.

A string is matched by a rule for its characters. Its lemmas are therefore about any body that
stands for one character.

## Main results

* `Layout.language_body`: the blanks of a layout.
* `language_stringBody`: strings between two lengths.
* `Terminal.language_body`: all other leaves.
-/

namespace SchemaGrammar

namespace Grammar

open scoped Computability
open Lexeme

variable {env : String → Language Char}

/-! ## Counts and classes -/

theorem Count.power_optional (l : Language Char) : Count.optional.power l = 1 + l := by
  ext w
  rw [Count.mem_power_optional, Language.mem_add, Language.mem_one]

theorem Count.power_many (l : Language Char) : Count.many.power l = l∗ := by
  ext w
  rw [Language.kstar_eq_iSup_pow, Language.mem_iSup]
  simp [Count.mem_power, Count.Admits]

theorem Count.power_some (l : Language Char) : Count.some.power l = l * l∗ := by
  ext w
  rw [Language.kstar_eq_iSup_pow, Language.mul_iSup, Language.mem_iSup, Count.mem_power]
  constructor
  · rintro ⟨_ | n, hn, hw⟩
    · exact absurd hn (by simp [Count.Admits])
    · exact ⟨n, by rwa [← pow_succ']⟩
  · rintro ⟨n, hw⟩
    exact ⟨n + 1, Nat.le_add_left 1 n, by rwa [pow_succ']⟩

theorem Count.power_exactly (n : Nat) (l : Language Char) : (Count.exactly n).power l = l ^ n := by
  ext w
  simp [Count.mem_power, Count.Admits]

theorem language_oneOf (members : String) : (oneOf members).language = among members := by
  ext w
  simp [CharClass.mem_language, CharClass.Admits, oneOf, ClassEntry.Admits, mem_among]

theorem language_span (first last : Char) : (span first last).language = between first last := by
  ext w
  simp [CharClass.mem_language, CharClass.Admits, span, ClassEntry.Admits, mem_between]

theorem language_digit : Grammar.digit.language = Lexeme.digit := language_span '0' '9'

/-! ## Numbers -/

theorem language_integerItem : integerItem.language env = Lexeme.integer := by
  simp only [integerItem, one, Item.language, choicesLanguage, sequenceLanguage, Count.power_once,
    Count.power_optional, Count.power_many, language_digit, language_span, mul_one, add_zero]
  rfl

theorem readable_integerItem : integerItem.Readable :=
  ⟨List.cons_ne_nil _ _,
    ⟨trivial, ⟨List.cons_ne_nil _ _, ⟨rfl, trivial⟩, ⟨rfl, rfl, trivial⟩, trivial⟩, trivial⟩, trivial⟩

theorem readable_fractionItems : SequenceReadable fractionItems :=
  ⟨⟨List.cons_ne_nil _ _, ⟨trivial, rfl, trivial⟩, trivial⟩,
    ⟨List.cons_ne_nil _ _, ⟨rfl, rfl, rfl, trivial⟩, trivial⟩, trivial⟩

theorem language_number :
    (items (integerItem :: fractionItems)).language env = Lexeme.number := by
  simp only [Body.language_items, fractionItems, sequenceLanguage, language_integerItem, one, lit,
    Item.language, choicesLanguage, Count.power_once, Count.power_optional, Count.power_some,
    language_digit, language_oneOf, mul_one, add_zero, Lexeme.number,
    Lexeme.digits, ← mul_assoc]
  rfl

/-! ## Strings -/

/-- The characters that stand for themselves. -/
theorem language_plain :
    CharClass.language
        { negated := true,
          entries := [.single '"', .single '\\', .single '\x7f', .range '\x00' '\x1f'] } =
      Lexeme.plain := by
  ext w
  simp only [CharClass.mem_language, CharClass.Admits, ClassEntry.Admits, mem_plain]
  refine exists_congr fun c => and_congr_left fun _ => ?_
  have h31 : (0 ≤ c.toNat ∧ c.toNat ≤ 31) ↔ c.toNat < 32 := by omega
  simpa using fun _ _ _ => h31.not

theorem language_hexDigit :
    CharClass.language { entries := [.range '0' '9', .range 'a' 'f', .range 'A' 'F'] } =
      Lexeme.hexDigit := by
  ext w
  simp only [CharClass.mem_language, CharClass.Admits, ClassEntry.Admits, Lexeme.hexDigit,
    Lexeme.digit, Language.mem_add, mem_between]
  simp [or_and_right, exists_or, or_assoc]

theorem language_stringCharBody : stringCharBody.language env = Lexeme.stringUnit := by
  simp only [Body.language, stringCharBody, choicesLanguage, sequenceLanguage, one, lit,
    Item.language, Count.power_once, Count.power_exactly, language_plain, language_hexDigit,
    language_oneOf, mul_one, add_zero, Lexeme.stringUnit, ← add_assoc]
  rfl

theorem readable_stringCharBody : stringCharBody.Readable :=
  ⟨List.cons_ne_nil _ _, ⟨rfl, trivial⟩, ⟨trivial, rfl, trivial⟩, ⟨trivial, rfl, trivial⟩, trivial⟩

theorem language_quote : quote.language env = Lexeme.word "\"" := Body.language_literal "\""

theorem isSegment_quote : quote.IsSegment := Body.isSegment_literal "\""

/-- Whatever stands between quotes. -/
theorem language_sequence_quote {b : Body} (h : b.IsSegment) :
    (sequence [quote, b, quote]).language env = Lexeme.quoted (b.language env) := by
  rw [language_sequence (by simp [h, isSegment_quote])]
  simp [language_quote, Lexeme.quoted, mul_assoc]

/-- Strings of an admitted number of characters, given what stands for one character. -/
theorem language_stringBody {bounds : LengthBounds} (hb : ∀ m ∈ bounds.most, bounds.least ≤ m)
    {charRule : Body} (h : charRule.IsPart) :
    (stringBody bounds charRule).language env =
      Lexeme.quoted (Lexeme.counted bounds (charRule.language env)) := by
  unfold stringBody
  split_ifs with hall hnone
  · rw [language_sequence_quote (Body.isSegment_counted h.segment _), Body.language_counted]
    congr 1
    ext w
    simp [Count.mem_power, Count.Admits, mem_counted, hall, Within]
  · have hleast : bounds.least = 0 := Nat.le_zero.mp (hb 0 (by simp [hnone]))
    have hcounted : Lexeme.counted bounds (charRule.language env) = 1 := by
      ext w
      simp [mem_counted, Within, hleast, hnone]
    rw [Body.language_literal, hcounted, Lexeme.quoted, mul_one, word_mul_word]
    rfl
  · rw [language_sequence_quote (isSegment_repetition h.segment (by simp) _ _)]
    congr 1
    ext w
    have hmax : bounds.most.map (max · bounds.least) = bounds.most := by
      cases hm : bounds.most with
      | none => rfl
      | some m => simp [hb m (by simp [hm])]
    rw [mem_repetition h.segment (by simp), hmax, mem_counted]
    simp only [separatorLanguage, joined_one_replicate]

theorem isPart_stringBody {bounds : LengthBounds} {charRule : Body} (h : charRule.IsPart) :
    (stringBody bounds charRule).IsPart := by
  have hquoted : ∀ {b : Body}, b.IsSegment → (sequence [quote, b, quote]).IsPart := fun hb =>
    isPart_sequence (by simp [hb, isSegment_quote]) List.mem_cons_self (by decide)
  unfold stringBody
  split_ifs
  · exact hquoted (Body.isSegment_counted h.segment _)
  · exact Body.isPart_literal (by decide)
  · exact hquoted (isSegment_repetition h.segment (by simp) _ _)

/-! ## Dates and times -/

/-- A segment whose words do not depend on any rule. -/
structure Body.Spells (b : Body) (l : Language Char) : Prop where
  segment : b.IsSegment
  language : ∀ env, b.language env = l

theorem spells_literal (text : String) : (Body.literal text).Spells (word text) :=
  ⟨Body.isSegment_literal text, fun _ => Body.language_literal text⟩

theorem spells_sequence {parts : List Body} {ls : List (Language Char)}
    (h : List.Forall₂ Body.Spells parts ls) : (sequence parts).Spells ls.prod := by
  have hseg : ∀ p ∈ parts, p.IsSegment := by
    induction h with
    | nil => exact fun p hp => absurd hp List.not_mem_nil
    | cons hb _ ih => exact List.forall_mem_cons.mpr ⟨hb.segment, ih⟩
  refine ⟨isSegment_sequence hseg, fun env => ?_⟩
  rw [language_sequence hseg]
  clear hseg
  induction h with
  | nil => rfl
  | cons hb _ ih => rw [List.map_cons, List.prod_cons, List.prod_cons, hb.language, ih]

theorem spells_group {b : Body} {l : Language Char} (hr : b.Readable)
    (h : ∀ env, b.language env = l) (count : Count) : (b.group count).Spells (count.power l) :=
  ⟨Body.isSegment_group hr count, fun env => by rw [Body.language_group, h env]⟩

theorem spells_bracketed {choices : List (List Item)} {l : Language Char}
    (hr : (Body.mk choices).Readable) (h : ∀ env, choicesLanguage env choices = l) :
    (bracketed choices).Spells l :=
  Count.power_once l ▸ spells_group hr h .once

/-- One of the characters of a class after a fixed text. -/
theorem language_pair (text : String) (set : CharClass) :
    sequenceLanguage env [lit text, one set] = word text * set.language := by
  simp only [sequenceLanguage, lit, one, Item.language, Count.power_once, mul_one]
  rfl

theorem language_chars_pair (first second : CharClass) :
    sequenceLanguage env [one first, one second] = first.language * second.language := by
  simp only [sequenceLanguage, one, Item.language, Count.power_once, mul_one]

theorem spells_dateBody : dateBody.Spells Lexeme.date := by
  have hyear : (Body.item (.chars digit (.exactly 4))).Spells (Lexeme.digit ^ 4) := by
    refine ⟨Body.isSegment_item rfl, fun env => ?_⟩
    rw [Body.language_item, Item.language, Count.power_exactly, language_digit]
  have hmonth : (bracketed [[lit "0", one (span '1' '9')], [lit "1", one (oneOf "012")]]).Spells
      (word "0" * between '1' '9' + word "1" * among "012") := by
    refine spells_bracketed
      ⟨by simp, ⟨trivial, rfl, trivial⟩, ⟨trivial, rfl, trivial⟩, trivial⟩ fun env => ?_
    simp only [choicesLanguage, language_pair, language_span, language_oneOf, add_zero]
  have hday : (bracketed [[lit "0", one (span '1' '9')], [one (oneOf "12"), one digit],
      [lit "3", one (oneOf "01")]]).Spells
      (word "0" * between '1' '9' + among "12" * Lexeme.digit + word "3" * among "01") := by
    refine spells_bracketed ⟨by simp, ⟨trivial, rfl, trivial⟩, ⟨rfl, rfl, trivial⟩,
      ⟨trivial, rfl, trivial⟩, trivial⟩ fun env => ?_
    simp only [choicesLanguage, language_pair, language_chars_pair, language_span, language_oneOf,
      language_digit, add_zero, add_assoc]
  have h := spells_sequence
    (.cons hyear <| .cons (spells_literal "-") <| .cons hmonth <| .cons (spells_literal "-") <|
      .cons hday .nil)
  simp only [List.prod_cons, List.prod_nil, mul_one, ← mul_assoc] at h
  exact h

theorem spells_hoursBody : hoursBody.Spells Lexeme.hours := by
  refine spells_bracketed ⟨by simp, ⟨rfl, rfl, trivial⟩, ⟨trivial, rfl, trivial⟩, trivial⟩
    fun env => ?_
  simp only [choicesLanguage, language_pair, language_chars_pair, language_span, language_oneOf,
    language_digit, add_zero]
  rfl

theorem spells_minutesBody : minutesBody.Spells Lexeme.minutes := by
  refine ⟨⟨_, rfl, rfl, rfl, trivial⟩, fun env => ?_⟩
  rw [minutesBody, Body.language_items, language_chars_pair, language_span, language_digit]
  rfl

theorem spells_offsetBody :
    offsetBody.Spells
      ((word "+" + word "-") * Lexeme.hours * word ":" * Lexeme.minutes) := by
  have hsign : (bracketed [[lit "+"], [lit "-"]]).Spells (word "+" + word "-") := by
    refine spells_bracketed ⟨by simp, ⟨trivial, trivial⟩, ⟨trivial, trivial⟩, trivial⟩
      fun env => ?_
    simp only [choicesLanguage, sequenceLanguage, lit, Item.language, Count.power_once, mul_one,
      add_zero]
    rfl
  have h := spells_sequence
    (.cons hsign <| .cons spells_hoursBody <| .cons (spells_literal ":") <|
      .cons spells_minutesBody .nil)
  simp only [List.prod_cons, List.prod_nil, mul_one, ← mul_assoc] at h
  exact h

theorem spells_timeBody : timeBody.Spells Lexeme.time := by
  have hfraction : ((items [lit ".", .chars digit (.exactly 3)]).group .optional).Spells
      (1 + word "." * Lexeme.digit ^ 3) := by
    have hinner : ∀ env, (items [lit ".", .chars digit (.exactly 3)]).language env =
        word "." * Lexeme.digit ^ 3 := by
      intro env
      simp only [Body.language_items, sequenceLanguage, lit, Item.language, Count.power_once,
        Count.power_exactly, language_digit, mul_one]
      rfl
    rw [← Count.power_optional]
    have hr : (items [lit ".", .chars digit (.exactly 3)]).Readable :=
      ⟨List.cons_ne_nil _ _, ⟨trivial, rfl, trivial⟩, trivial⟩
    exact spells_group hr hinner .optional
  have hzone : ((choice [.literal "Z", offsetBody]).group .once).Spells
      (word "Z" + (word "+" + word "-") * Lexeme.hours * word ":" * Lexeme.minutes) := by
    have hinner : ∀ env, (choice [.literal "Z", offsetBody]).language env =
        word "Z" + (word "+" + word "-") * Lexeme.hours * word ":" * Lexeme.minutes := by
      intro env
      ext w
      rw [mem_choice, Language.mem_add, ← spells_offsetBody.language env, Lexeme.mem_word]
      simp [mem_word]
    have hr : (choice [.literal "Z", offsetBody]).Readable :=
      readable_choice (by simp)
        (by simp [(Body.isSegment_literal "Z").readable, spells_offsetBody.segment.readable])
    have h := spells_group hr hinner .once
    rwa [Count.power_once] at h
  have h := spells_sequence
    (.cons spells_hoursBody <| .cons (spells_literal ":") <| .cons spells_minutesBody <|
      .cons (spells_literal ":") <| .cons spells_minutesBody <| .cons hfraction <|
      .cons hzone .nil)
  simp only [List.prod_cons, List.prod_nil, mul_one, ← mul_assoc] at h
  exact h

theorem spells_formatBody (f : TextFormat) : (formatBody f).Spells (quoted f.language) := by
  have hquoted : ∀ {b : Body} {l : Language Char}, b.Spells l →
      (sequence [quote, b, quote]).Spells (quoted l) := by
    intro b l h
    have h := spells_sequence
      (.cons (spells_literal "\"") <| .cons h <| .cons (spells_literal "\"") .nil)
    simp only [List.prod_cons, List.prod_nil, mul_one, ← mul_assoc] at h
    exact h
  cases f with
  | date => exact hquoted spells_dateBody
  | time => exact hquoted spells_timeBody
  | dateTime =>
    have h := spells_sequence
      (.cons spells_dateBody <| .cons (spells_literal "T") <| .cons spells_timeBody .nil)
    rw [List.prod_cons, List.prod_cons, List.prod_cons, List.prod_nil, mul_one, ← mul_assoc] at h
    exact hquoted h

/-! ## Blanks -/

theorem isPart_repeatedLiteral {text : String} (ht : text ≠ "") {n : Nat} (hn : n ≠ 0) :
    (repeatedLiteral text n).IsPart := by
  rw [repeatedLiteral]
  split_ifs
  · exact Body.isPart_item trivial (by simp [ht])
  · refine Body.isPart_literal fun h => ht ?_
    obtain ⟨k, rfl⟩ := Nat.exists_eq_succ_of_ne_zero hn
    rw [repeatText, if_neg (by simpa using ht), ← String.toList_inj, String.toList_join,
      List.replicate_succ, List.flatMap_cons] at h
    exact String.toList_inj.mp (List.append_eq_nil_iff.mp h).1

theorem language_repeatedLiteral_char (c : Char) (n : Nat) :
    (repeatedLiteral (String.singleton c) n).language env = {List.replicate n c} := by
  rw [language_repeatedLiteral, word_pow]
  simp

theorem isSegment_optionalBlank : optionalBlank.IsSegment := Body.isSegment_item rfl

theorem language_optionalBlank : optionalBlank.language env = 1 + word " " := by
  rw [optionalBlank, Body.language_item, Item.language, Count.power_optional, language_oneOf]
  congr 1
  ext w
  simp [mem_among, Lexeme.mem_word]

end Grammar

open Grammar Lexeme

variable {env : String → Language Char}

theorem Layout.isSegment_indent (l : Layout) : l.indent.IsSegment := by
  rw [Layout.indent]
  split_ifs
  · exact Body.isSegment_empty
  · exact isSegment_alternation (by simp [isSegment_repeatedLiteral])

/-- Indentation by no spaces at all is left out of the choice, so only tabs remain. -/
theorem Layout.mem_indent (l : Layout) {w : List Char} :
    w ∈ l.indent.language env ↔ w ∈ l.indentations := by
  have hspaces : (repeatedLiteral " " l.padding).language env = {List.replicate l.padding ' '} :=
    language_repeatedLiteral_char ' ' _
  have htabs : (repeatedLiteral "\t" l.depth).language env = {List.replicate l.depth '\t'} :=
    language_repeatedLiteral_char '\t' _
  rw [Layout.indent, Layout.indentations]
  by_cases hdepth : l.depth = 0
  · simp [hdepth, padding_eq_zero hdepth, Language.mem_one]
  · have htab : (repeatedLiteral "\t" l.depth).IsPart := isPart_repeatedLiteral (by decide) hdepth
    rw [if_neg hdepth]
    by_cases hpad : l.padding = 0
    · have hblank : (repeatedLiteral " " 0).isBlank := by decide
      have hone : alternation [repeatedLiteral " " 0, repeatedLiteral "\t" l.depth] =
          repeatedLiteral "\t" l.depth := by
        simp [alternation, distinct, distinct.go, hblank, htab.visible]
      rw [hpad, hone, htabs, if_pos rfl, Grammar.mem_word, List.mem_singleton]
    · have hspace : (repeatedLiteral " " l.padding).IsPart :=
        isPart_repeatedLiteral (by decide) hpad
      rw [if_neg hpad, mem_alternation (by simp) (by
        simp [hspace.segment.readable, hspace.visible, htab.segment.readable, htab.visible])]
      simp [hspaces, htabs, Grammar.mem_word]

/-- A line break and the indentation after it. -/
theorem Layout.isSegment_line (l : Layout) :
    (sequence [.item (one (oneOf "\n")), l.indent]).IsSegment := by
  have hbreak : (Body.item (one (oneOf "\n"))).IsSegment := Body.isSegment_item rfl
  exact isSegment_sequence (by simp [hbreak, l.isSegment_indent])

theorem Layout.readable_body (l : Layout) : l.body.Readable := by
  rw [Layout.body]
  split_ifs
  · exact readable_choice (by simp)
      (by simp [isSegment_optionalBlank.readable, l.isSegment_line.readable])
  · exact isSegment_optionalBlank.readable

theorem Layout.visible_body (l : Layout) : l.body.isBlank = false := by
  rw [Bool.eq_false_iff, Ne, l.readable_body.isBlank_iff, Layout.body]
  split_ifs
  · -- two alternatives are not a single sequence
    obtain ⟨list, hlist, -⟩ := l.isSegment_line
    rw [hlist]
    simp [choice, Body.orElse, items, optionalBlank, Body.item]
  · simp [optionalBlank, Body.item, items]

theorem Layout.language_body (l : Layout) : l.body.language env = l.blanks := by
  have hblank : ∀ {w : List Char}, w ∈ optionalBlank.language env ↔ w = [] ∨ w = [' '] := by
    intro w
    rw [language_optionalBlank, Language.mem_add, Language.mem_one, Lexeme.mem_word]
    rfl
  have hbreak : (Body.item (one (oneOf "\n"))).IsSegment := Body.isSegment_item rfl
  ext w
  rw [Layout.body, Layout.mem_blanks]
  split_ifs with hnew
  · rw [mem_choice]
    have hline : w ∈ (sequence [.item (one (oneOf "\n")), l.indent]).language env ↔
        ∃ indent ∈ l.indentations, w = '\n' :: indent := by
      rw [language_sequence (by simp [hbreak, l.isSegment_indent])]
      simp [one, Item.language, language_oneOf, Language.mem_mul, mem_among, Layout.mem_indent,
        eq_comm]
    simp [hline, hblank, hnew, or_comm]
  · simp [hblank, hnew]

/-! ## All leaves -/

/-- A leaf that has words: lengths are in order, and a fixed text is not empty. -/
def Terminal.WellFormed : Terminal → Prop
  | .string bounds => ∀ m ∈ bounds.most, bounds.least ≤ m
  | .verbatim text => text ≠ ""
  | _ => True

/-- Whether a leaf is a string of any text. -/
def Terminal.isString : Terminal → Bool
  | .string _ => true
  | _ => false

theorem Json.decimalText_ne_empty (d : Decimal.Digits) : Json.decimalText d ≠ "" := by
  rw [Ne, ← String.toList_inj, Json.decimalText]
  split_ifs <;> simp

theorem Json.Number.text_ne_empty (n : Json.Number) : n.text ≠ "" := by
  cases n with
  | integer n =>
    cases n with
    | ofNat n => exact fun h => by simpa using congrArg String.toList (show toString n = "" from h)
    | negSucc n =>
      intro h
      have h : "-" ++ toString (n + 1) = "" := h
      simpa using congrArg String.toList h
  | real x =>
    have happend : ∀ a b : String, b ≠ "" → a ++ b ≠ "" := fun a b hb h => hb (by simp_all)
    rw [Json.Number.text, Json.realText]
    split
    · exact happend _ _ (by decide)
    · exact happend _ _ (Json.decimalText_ne_empty _)

theorem Json.stringText_ne_empty (text : String) : Json.stringText text ≠ "" := by
  rw [Ne, ← String.toList_inj, Json.stringText]
  simp

namespace Terminal

/-- A leaf that is written where it stands is a text. -/
theorem exists_body_eq_literal {t : Terminal} (h : t.ruleName? = none) :
    ∃ text, t.body .empty = .literal text ∧ (t.WellFormed → text ≠ "") := by
  cases t with
  | booleanLiteral b => exact ⟨_, rfl, fun _ => by cases b <;> decide⟩
  | numberLiteral n => exact ⟨_, rfl, fun _ => n.text_ne_empty⟩
  | stringLiteral text => exact ⟨_, rfl, fun _ => Json.stringText_ne_empty text⟩
  | verbatim text => exact ⟨_, rfl, fun h => h⟩
  | number fractional => cases fractional <;> cases h
  | _ => cases h

/-- **The body of a leaf matches the words of the leaf.** -/
theorem language_body {t : Terminal} (h : t.isString = false) :
    (t.body .empty).language env = t.language := by
  cases t with
  | string bounds => simp [isString] at h
  | boolean =>
    ext w
    simp [Terminal.body, mem_choice, Terminal.language, Language.mem_add, Lexeme.mem_word,
      Grammar.mem_word]
  | number fractional =>
    cases fractional with
    | false =>
      rw [Terminal.body, Body.language_items, sequenceLanguage, sequenceLanguage, mul_one]
      exact language_integerItem
    | true => exact language_number
  | format f => exact (spells_formatBody f).language env
  | whitespace layout => exact layout.language_body
  | stringChar => exact language_stringCharBody
  | _ => exact Body.language_literal _

theorem readable_body {t : Terminal} (h : t.isString = false) : (t.body .empty).Readable := by
  cases t with
  | string bounds => simp [isString] at h
  | boolean =>
    exact readable_choice (by simp)
      (by simp [(Body.isSegment_literal "true").readable, (Body.isSegment_literal "false").readable])
  | number fractional =>
    cases fractional with
    | false => exact ⟨List.cons_ne_nil _ _, ⟨readable_integerItem, trivial⟩, trivial⟩
    | true =>
      exact ⟨List.cons_ne_nil _ _, ⟨readable_integerItem, readable_fractionItems⟩, trivial⟩
  | format f => exact (spells_formatBody f).segment.readable
  | whitespace layout => exact layout.readable_body
  | stringChar => exact readable_stringCharBody
  | _ => exact (Body.isSegment_literal _).readable

theorem visible_body {t : Terminal} (h : t.isString = false) (hw : t.WellFormed) :
    (t.body .empty).isBlank = false := by
  cases t with
  | string bounds => simp [isString] at h
  | whitespace layout => exact layout.visible_body
  | numberLiteral n => exact (Body.isPart_literal n.text_ne_empty).visible
  | stringLiteral text => exact (Body.isPart_literal (Json.stringText_ne_empty text)).visible
  | verbatim text => exact (Body.isPart_literal hw).visible
  | number fractional => cases fractional <;> decide
  | booleanLiteral b => cases b <;> decide
  | format f => cases f <;> decide
  | _ => decide

end Terminal

end SchemaGrammar
