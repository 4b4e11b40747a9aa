import SchemaGrammar.Proofs.ClosedForms
import SchemaGrammar.Proofs.CompactText

/-!
# Every text of a grammar is JSON

The syntax of JSON texts, said on characters: blanks around one value, a value a scalar
or brackets around entries with a comma between two of them, and blanks around every entry. It does
not mention schemas, shapes or grammars.

No form leaves this syntax: leaves are JSON values, and what a list or an object makes of JSON
values is one. Line breaks after the document are blanks.

## Main definitions

* `Json.IsNumber`, `Json.IsString`, `Json.IsValue`, `Json.IsText`: the syntax.

## Main results

* `Json.closedForms`: the forms do not leave the values.
* `isText_of_accepts`: the texts of a grammar are JSON texts.
-/

namespace SchemaGrammar

open Grammar
open scoped Computability

/-! ## The syntax -/

namespace Json

/-- Blanks that mean nothing. -/
def IsBlank (w : List Char) : Prop := ∀ c ∈ w, c ∈ [' ', '\t', '\n', '\r']

/-- At least one digit. -/
def IsDigits (w : List Char) : Prop := w ≠ [] ∧ ∀ c ∈ w, c.isDigit = true

/-- The integer part of a number: a zero, or digits that do not begin with one. -/
def IsIntegerPart (w : List Char) : Prop := w = ['0'] ∨ IsDigits w ∧ w.head? ≠ some '0'

/-- The exponent of a number. -/
inductive IsExponent : List Char → Prop
  | intro {mark : Char} {sign digits : List Char} (hm : mark = 'e' ∨ mark = 'E')
      (hs : sign = [] ∨ sign = ['-'] ∨ sign = ['+']) (hd : IsDigits digits) :
      IsExponent (mark :: sign ++ digits)

/-- A number: a sign, an integer part, a fraction and an exponent, of which only the integer part
must be there. -/
inductive IsNumber : List Char → Prop
  | intro {sign whole fraction exponent : List Char} (hs : sign = [] ∨ sign = ['-'])
      (hw : IsIntegerPart whole) (hf : fraction = [] ∨ ∃ digits, IsDigits digits ∧
        fraction = '.' :: digits) (he : exponent = [] ∨ IsExponent exponent) :
      IsNumber (sign ++ whole ++ fraction ++ exponent)

/-- A digit of base sixteen. -/
def IsHexDigit (c : Char) : Prop :=
  c.isDigit = true ∨ ('a' ≤ c ∧ c ≤ 'f') ∨ ('A' ≤ c ∧ c ≤ 'F')

/-- What stands for one character of a string: itself, unless it is a quote, a backslash or a
control character, or an escape. -/
inductive IsStringUnit : List Char → Prop
  | plain {c : Char} (hc : 0x20 ≤ c.toNat) (hq : c ≠ '"') (hb : c ≠ '\\') : IsStringUnit [c]
  | escape {c : Char} (hc : c ∈ ['"', '\\', '/', 'b', 'f', 'n', 'r', 't']) : IsStringUnit ['\\', c]
  | code {digits : List Char} (hl : digits.length = 4) (hd : ∀ c ∈ digits, IsHexDigit c) :
      IsStringUnit ('\\' :: 'u' :: digits)

/-- A string: units between quotes. -/
inductive IsString : List Char → Prop
  | intro {units : List (List Char)} (h : ∀ u ∈ units, IsStringUnit u) :
      IsString ('"' :: units.flatten ++ ['"'])

/-- At least one entry, a comma between two of them, blanks around each. -/
inductive Separated (entry : List Char → Prop) : List Char → Prop
  | one {b v b' : List Char} (hb : IsBlank b) (hv : entry v) (hb' : IsBlank b') :
      Separated entry (b ++ v ++ b')
  | more {b v b' w : List Char} (hb : IsBlank b) (hv : entry v) (hb' : IsBlank b')
      (hw : Separated entry w) : Separated entry (b ++ v ++ b' ++ ',' :: w)

mutual

/-- A value. -/
inductive IsValue : List Char → Prop
  | null : IsValue "null".toList
  | true : IsValue "true".toList
  | false : IsValue "false".toList
  | number {w : List Char} (h : IsNumber w) : IsValue w
  | string {w : List Char} (h : IsString w) : IsValue w
  | emptyArray {b : List Char} (h : IsBlank b) : IsValue ('[' :: b ++ [']'])
  | array {w : List Char} (h : Separated IsValue w) : IsValue ('[' :: w ++ [']'])
  | emptyObject {b : List Char} (h : IsBlank b) : IsValue ('\x7b' :: b ++ ['\x7d'])
  | object {w : List Char} (h : Separated IsMember w) : IsValue ('\x7b' :: w ++ ['\x7d'])

/-- A member of an object: a string, a colon and a value. -/
inductive IsMember : List Char → Prop
  | intro {k b b' v : List Char} (hk : IsString k) (hb : IsBlank b) (hb' : IsBlank b')
      (hv : IsValue v) : IsMember (k ++ b ++ ':' :: b' ++ v)

end

/-- A JSON text: one value, and blanks around it. -/
inductive IsText : List Char → Prop
  | intro {b v b' : List Char} (hb : IsBlank b) (hv : IsValue v) (hb' : IsBlank b') :
      IsText (b ++ v ++ b')

/-- Whether a character may begin an entry of a container: it is no blank and closes no bracket. -/
def beginsEntry (c : Char) : Bool := !([' ', '\t', '\n', '\r', ']', '\x7d'].contains c)

theorem exists_cons_of_isNumber {w : List Char} (h : IsNumber w) :
    ∃ c rest, beginsEntry c = true ∧ w = c :: rest := by
  obtain ⟨hsign, hwhole, -, -⟩ := h
  rcases hsign with rfl | rfl
  · rcases hwhole with rfl | ⟨⟨hne, hdigits⟩, -⟩
    · exact ⟨_, _, by decide, rfl⟩
    · obtain ⟨c, rest, rfl⟩ := List.exists_cons_of_ne_nil hne
      refine ⟨c, _, ?_, rfl⟩
      have hdigit := hdigits c List.mem_cons_self
      by_contra hother
      simp only [beginsEntry, Bool.not_eq_true, Bool.not_eq_false', List.contains_eq_mem,
        decide_eq_true_eq, List.mem_cons, List.not_mem_nil, or_false] at hother
      rcases hother with rfl | rfl | rfl | rfl | rfl | rfl <;> cases hdigit
  · exact ⟨_, _, by decide, rfl⟩

/-- A value begins with neither a blank nor a closing bracket. -/
theorem exists_cons_of_isValue {w : List Char} (h : IsValue w) :
    ∃ c rest, beginsEntry c = true ∧ w = c :: rest := by
  cases h with
  | null | true | false => exact ⟨_, _, by decide, rfl⟩
  | number h => exact exists_cons_of_isNumber h
  | string h =>
    obtain ⟨-⟩ := h
    exact ⟨_, _, by decide, rfl⟩
  | emptyArray | array | emptyObject | object => exact ⟨_, _, by decide, rfl⟩

theorem isBlank_nil : IsBlank [] := fun _ hc => absurd hc List.not_mem_nil

theorem isBlank_cons {c : Char} {w : List Char} (hc : c ∈ [' ', '\t', '\n', '\r'])
    (hw : IsBlank w) : IsBlank (c :: w) :=
  List.forall_mem_cons.mpr ⟨hc, hw⟩

theorem isBlank_replicate {c : Char} (hc : c ∈ [' ', '\t', '\n', '\r']) (n : Nat) :
    IsBlank (List.replicate n c) := fun _ hd => List.eq_of_mem_replicate hd ▸ hc

theorem IsBlank.append {u v : List Char} (hu : IsBlank u) (hv : IsBlank v) : IsBlank (u ++ v) :=
  List.forall_mem_append.mpr ⟨hu, hv⟩

end Json

open Json

/-! ## Scalars -/

namespace Lexeme

variable {w : List Char}

theorem isDigit_of_mem (h : w ∈ digit) : ∃ c : Char, c.isDigit = true ∧ w = [c] := by
  obtain ⟨c, hc, rfl⟩ := h
  refine ⟨c, ?_, rfl⟩
  simpa [Char.isDigit, UInt32.le_iff_toNat_le] using hc

/-- Words of one letter each, in a row. -/
theorem letters_of_parts {p : Char → Prop} {parts : List (List Char)}
    (h : ∀ u ∈ parts, ∃ c, p c ∧ u = [c]) :
    parts.flatten.length = parts.length ∧ ∀ c ∈ parts.flatten, p c := by
  induction parts with
  | nil => exact ⟨rfl, fun _ hc => absurd hc List.not_mem_nil⟩
  | cons u parts ih =>
    obtain ⟨⟨c, hc, rfl⟩, hparts⟩ := List.forall_mem_cons.mp h
    obtain ⟨hlength, hall⟩ := ih hparts
    exact ⟨by simp [hlength], List.forall_mem_cons.mpr ⟨hc, hall⟩⟩

theorem isDigit_of_mem_kstar (h : w ∈ digit∗) : ∀ c ∈ w, c.isDigit = true := by
  obtain ⟨parts, rfl, hparts⟩ := h
  exact (letters_of_parts fun u hu => isDigit_of_mem (hparts u hu)).2

theorem isDigits_of_mem (h : w ∈ digits) : IsDigits w := by
  obtain ⟨u, hu, v, hv, rfl⟩ := Language.mem_mul.mp h
  obtain ⟨c, hc, rfl⟩ := isDigit_of_mem hu
  exact ⟨List.cons_ne_nil _ _, List.forall_mem_cons.mpr ⟨hc, isDigit_of_mem_kstar hv⟩⟩

theorem isIntegerPart_of_mem (h : w ∈ whole) : IsIntegerPart w := by
  rcases h with h | h
  · obtain ⟨c, hc, rfl⟩ := isDigit_of_mem h
    by_cases hzero : c = '0'
    · exact .inl (hzero ▸ rfl)
    · refine .inr ⟨⟨List.cons_ne_nil _ _, by simpa using hc⟩, by simpa using hzero⟩
  · obtain ⟨_, ⟨c, ⟨hlow, hhigh⟩, rfl⟩, v, hv, rfl⟩ := Language.mem_mul.mp h
    have hc : [c] ∈ digit := ⟨c, ⟨le_trans (by decide) hlow, hhigh⟩, rfl⟩
    obtain ⟨_, hc, heq⟩ := isDigit_of_mem hc
    cases heq
    refine .inr ⟨⟨List.cons_ne_nil _ _,
      List.forall_mem_cons.mpr ⟨hc, isDigit_of_mem_kstar hv⟩⟩, ?_⟩
    rintro ⟨⟩
    exact absurd hlow (by decide)

theorem fraction_of_mem (h : w ∈ fraction) : w = [] ∨ ∃ digits, IsDigits digits ∧
    w = '.' :: digits := by
  rcases h with h | h
  · exact .inl h
  · obtain ⟨_, rfl, v, hv, rfl⟩ := Language.mem_mul.mp h
    exact .inr ⟨v, isDigits_of_mem hv, rfl⟩

theorem exponent_of_mem (h : w ∈ exponent) : w = [] ∨ IsExponent w := by
  rcases h with h | h
  · exact .inl h
  · obtain ⟨_, hmark, v, hv, rfl⟩ := Language.mem_mul.mp h
    obtain ⟨_, ⟨mark, hm, rfl⟩, sign, hs, rfl⟩ := Language.mem_mul.mp hmark
    refine .inr (.intro (by simpa using hm) ?_ (isDigits_of_mem hv))
    rcases hs with hs | ⟨c, hc, rfl⟩
    · exact .inl hs
    · right
      simpa using hc

theorem isNumber_of_mem (h : w ∈ number) : IsNumber w := by
  rw [number_eq] at h
  obtain ⟨sign, hs, _, hparts, rfl⟩ := Language.mem_mul.mp h
  obtain ⟨_, hplaces, exponent, he, rfl⟩ := Language.mem_mul.mp hparts
  obtain ⟨whole, hw, fraction, hf, rfl⟩ := Language.mem_mul.mp hplaces
  have hsign : sign = [] ∨ sign = ['-'] := hs
  simpa using IsNumber.intro hsign (isIntegerPart_of_mem hw) (fraction_of_mem hf)
    (exponent_of_mem he)

theorem isHexDigit_of_mem (h : w ∈ hexDigit) : ∃ c, IsHexDigit c ∧ w = [c] := by
  rcases h with (h | ⟨c, hc, rfl⟩) | ⟨c, hc, rfl⟩
  · obtain ⟨c, hc, rfl⟩ := isDigit_of_mem h
    exact ⟨c, .inl hc, rfl⟩
  · exact ⟨c, .inr (.inl hc), rfl⟩
  · exact ⟨c, .inr (.inr hc), rfl⟩

theorem isStringUnit_of_mem (h : w ∈ stringUnit) : IsStringUnit w := by
  rcases h with (⟨c, ⟨hq, hb, -, hc⟩, rfl⟩ | h) | h
  · exact .plain (not_lt.mp hc) hq hb
  · obtain ⟨_, rfl, _, ⟨c, hc, rfl⟩, rfl⟩ := Language.mem_mul.mp h
    exact .escape hc
  · obtain ⟨_, rfl, v, hv, rfl⟩ := Language.mem_mul.mp h
    obtain ⟨parts, rfl, hcount, hparts⟩ := Language.mem_pow.mp hv
    obtain ⟨hlength, hdigits⟩ := letters_of_parts fun u hu => isHexDigit_of_mem (hparts u hu)
    exact .code (hlength.trans hcount) hdigits

/-- Units between quotes. -/
theorem isString_of_mem {l : Language Char} (hl : ∀ u ∈ l, ∃ units : List (List Char),
    (∀ x ∈ units, IsStringUnit x) ∧ u = units.flatten) (h : w ∈ quoted l) : IsString w := by
  obtain ⟨_, hopen, _, rfl, rfl⟩ := Language.mem_mul.mp h
  obtain ⟨_, rfl, u, hu, rfl⟩ := Language.mem_mul.mp hopen
  obtain ⟨units, hunits, rfl⟩ := hl u hu
  exact .intro hunits

end Lexeme

open Lexeme

/-- What the text of a string is made of. -/
theorem Json.isStringUnit_escapedChar (c : Char) : IsStringUnit (escapedChar c) := by
  by_cases h : c = '\x7f'
  · rw [h]
    exact .plain (by decide) (by decide) (by decide)
  · exact isStringUnit_of_mem (escapedChar_mem h)

theorem Json.isString_stringText (s : String) : IsString (stringText s).toList := by
  have h : IsString ('"' :: (s.toList.map escapedChar).flatten ++ ['"']) :=
    .intro (List.forall_mem_map.mpr fun c _ => isStringUnit_escapedChar c)
  simpa [stringText, List.flatMap] using h

theorem isString_of_mem_string {bounds : LengthBounds} {w : List Char}
    (h : w ∈ (Terminal.string bounds).language) : IsString w := by
  refine isString_of_mem ?_ h
  rintro u ⟨k, -, hu⟩
  obtain ⟨units, rfl, -, hunits⟩ := Language.mem_pow.mp hu
  exact ⟨units, fun x hx => isStringUnit_of_mem (hunits x hx), rfl⟩

/-- The words of a leaf that is a value are values. -/
theorem Terminal.isValue_of_mem {t : Terminal} (ht : t.isValue = true) {w : List Char}
    (h : w ∈ t.language) : IsValue w := by
  cases t with
  | null => exact h ▸ .null
  | booleanLiteral b =>
    cases b with
    | false => exact h ▸ .false
    | true => exact h ▸ .true
  | boolean =>
    rcases h with h | h
    · exact h ▸ .true
    · exact h ▸ .false
  | numberLiteral n => exact .number (isNumber_of_mem (h ▸ n.text_mem))
  | number fractional =>
    refine .number (isNumber_of_mem ?_)
    cases fractional with
    | false => exact integer_le_number h
    | true => exact h
  | stringLiteral text => exact .string (h ▸ isString_stringText text)
  | string bounds => exact .string (isString_of_mem_string h)
  | format f =>
    refine .string (isString_of_mem ?_ h)
    intro u hu
    refine ⟨u.map ([·]), List.forall_mem_map.mpr fun c hc => ?_, (List.flatMap_singleton' u).symm⟩
    exact isStringUnit_of_mem (.inl (.inl (mem_plain_of_isPlainChar (f.language_le_spelled hu c hc))))
  | verbatim text => cases ht
  | whitespace layout => cases ht
  | stringChar => cases ht

/-! ## Containers -/

theorem Layout.isBlank_of_mem {l : Layout} {w : List Char} (h : w ∈ l.blanks) : IsBlank w := by
  rcases h with (rfl | rfl) | ⟨-, indent, hindent, rfl⟩
  · exact isBlank_nil
  · exact isBlank_cons (by decide) isBlank_nil
  · refine isBlank_cons (by decide) ?_
    unfold Layout.indentations at hindent
    split_ifs at hindent
    · rw [List.mem_singleton.mp hindent]
      exact isBlank_replicate (by decide) _
    · rcases List.mem_pair.mp hindent with rfl | rfl
      · exact isBlank_replicate (by decide) _
      · exact isBlank_replicate (by decide) _

/-- What stands between the brackets of a container: nothing but blanks, or entries. -/
theorem blank_or_separated {entry : List Char → Prop} {entries : Language Char}
    (hentries : ∀ w ∈ entries, entry w) {layout : Layout} {b w b' : List Char}
    (hb : b ∈ layout.descend.blanks) (hw : w = [] ∨ Row entries layout.descend.blanks w)
    (hb' : b' ∈ layout.blanks) :
    IsBlank (b ++ w ++ b') ∨ Separated entry (b ++ w ++ b') := by
  have hb := Layout.isBlank_of_mem hb
  have hb' := Layout.isBlank_of_mem hb'
  rcases hw with rfl | hw
  · rw [List.append_nil]
    exact .inl (hb.append hb')
  · refine .inr ?_
    induction hw generalizing b with
    | one hw => exact .one hb (hentries _ hw) hb'
    | more hu hc _ ih =>
      have hnext := ih hc (Layout.isBlank_of_mem hc)
      simpa using Separated.more hb (hentries _ hu) isBlank_nil hnext

theorem isBlank_of_gap {g : List Char} (h : g = [] ∨ g = [' ']) : IsBlank g := by
  rcases h with rfl | rfl
  · exact isBlank_nil
  · exact isBlank_cons (by decide) isBlank_nil

/-! ## Shapes and grammars -/

/-- The values, as a language. -/
def Json.values : Language Char := {w | IsValue w}

/-- The members of objects, as a language. -/
def Json.members : Language Char := {w | IsMember w}

theorem Json.closedForms (lines : Bool) : ClosedForms lines Json.values Json.members where
  leaf ht _ hw := Terminal.isValue_of_mem ht hw
  list _ hb hw hb' := by
    have hvalues : ∀ w ∈ Json.values, IsValue w := fun _ h => h
    rcases blank_or_separated hvalues hb hw hb' with h | h
    · exact IsValue.emptyArray h
    · exact IsValue.array h
  object _ hb hw hb' := by
    have hmembers : ∀ w ∈ Json.members, IsMember w := fun _ h => h
    rcases blank_or_separated hmembers hb hw hb' with h | h
    · exact IsValue.emptyObject h
    · exact IsValue.object h
  entry {name k g v} hname hk _ hg hv := by
    have hstring : IsString k := by
      rcases hname with rfl | ⟨text, rfl⟩
      · exact isString_of_mem_string hk
      · exact hk ▸ isString_stringText text
    have hmember : IsMember (k ++ [] ++ ':' :: g ++ v) :=
      .intro hstring isBlank_nil (isBlank_of_gap hg) hv
    rwa [List.append_nil, List.append_assoc] at hmember

/-- A text of a grammar is in any language that the forms do not leave, up to the line breaks after
the document. -/
theorem ClosedForms.exists_of_accepts {values members : Language Char} {s : Schema}
    {external : Assoc Schema} {options : Options} {grammar text : String}
    (hclosed : ClosedForms options.layout.style.newLines values members)
    (h : grammarText s external options = .ok grammar) (ha : Accepts grammar text) :
    ∃ u ∈ values, ∃ k ≤ options.trailingNewLines,
      text.toList = u ++ List.replicate k '\n' := by
  obtain ⟨lowered, body, env, hlower, hread, hvis, hlang, haccepts⟩ := accepts_iff_padded h
  obtain ⟨u, k, hu, hk, htext⟩ := mem_of_mem_padded hread hvis ((haccepts text).mp ha)
  rw [hlang] at hu
  exact ⟨u, hclosed.language_le (inStyle_lower hlower) _ hu, k, hk, htext⟩

/-- **Everything a grammar accepts is JSON**, whatever the schema and the options. -/
theorem isText_of_accepts {s : Schema} {external : Assoc Schema} {options : Options}
    {grammar text : String} (h : grammarText s external options = .ok grammar)
    (ha : Accepts grammar text) : Json.IsText text.toList := by
  obtain ⟨u, hu, k, -, htext⟩ := (Json.closedForms _).exists_of_accepts h ha
  rw [htext]
  exact .intro isBlank_nil hu (isBlank_replicate (by decide) k)

theorem isText_eventText : ∃ grammar, grammarText eventSchema [] {} = .ok grammar ∧
    Accepts grammar eventText ∧ Json.IsText eventText.toList := by
  obtain ⟨grammar, hg⟩ := exists_grammar_eventSchema
  obtain ⟨lowered, hlower, haccepts⟩ := accepts_of_mem_language hg
  have ha : Accepts grammar eventText := by
    rw [← text_eventDocument]
    exact haccepts _ (letters_mem_language_of_validateUnder distinctNames_eventSchema
      lexicallyScoped_eventSchema hlower validateUnder_eventDocument isPlain_eventDocument)
  exact ⟨grammar, hg, ha, isText_of_accepts hg ha⟩

end SchemaGrammar
