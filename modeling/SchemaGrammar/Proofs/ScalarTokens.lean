import SchemaGrammar.Proofs.StringSpelling

/-!
# The tokens of scalars

The languages of the leaves for numbers and strings are the tokens of the syntax of JSON, and
nothing else. An integer is a number without fraction and exponent. A string is counted in units of
its syntax: a character as it stands, an escape of two characters, or an escape of four digits. The
one thing the languages leave out is a delete character as it stands.

A unit never begins another one, so a string is made of units in a single way, and the number of its
units is well defined.

## Main definitions

* `Json.IsUnits`: the units of a string.

## Main results

* `Lexeme.mem_number_iff`, `Lexeme.mem_integer_iff`: numbers and integers.
* `mem_string_iff`, `mem_anyString_iff`: strings with and without bounds on their length.
* `Json.IsUnits.unique`: the units of a string.
-/

namespace SchemaGrammar

open Grammar Json
open scoped Computability

/-! ## Numbers -/

namespace Lexeme

variable {w : List Char}

theorem mem_whole_iff : w ∈ whole ↔ IsIntegerPart w := by
  refine ⟨isIntegerPart_of_mem, ?_⟩
  rintro (rfl | ⟨⟨hne, hdigits⟩, hlead⟩)
  · exact Or.inl (mem_digit rfl)
  · obtain ⟨c, rest, rfl⟩ := List.exists_cons_of_ne_nil hne
    exact mem_whole ⟨hdigits, c, rfl, fun hzero => hlead (congrArg some hzero)⟩

theorem mem_fraction_iff :
    w ∈ fraction ↔ w = [] ∨ ∃ digits, IsDigits digits ∧ w = '.' :: digits := by
  refine ⟨fraction_of_mem, ?_⟩
  rintro (rfl | ⟨digits, ⟨hne, hdigits⟩, rfl⟩)
  · exact nil_mem_fraction
  · exact mem_fraction hne hdigits

theorem mem_exponent_iff : w ∈ exponent ↔ w = [] ∨ IsExponent w := by
  refine ⟨exponent_of_mem, ?_⟩
  rintro (rfl | ⟨hmark, hsign, hne, hdigits⟩)
  · exact nil_mem_exponent
  · refine Or.inr (Language.append_mem_mul (Language.append_mem_mul (a := [_]) ?_ ?_)
      (mem_digits hne hdigits))
    · exact ⟨_, by simpa using hmark, rfl⟩
    · rcases hsign with rfl | rfl | rfl
      · exact Or.inl Language.nil_mem_one
      · exact Or.inr ⟨'-', by decide, rfl⟩
      · exact Or.inr ⟨'+', by decide, rfl⟩

/-- **The words of numbers are the number tokens.** -/
theorem mem_number_iff : w ∈ number ↔ IsNumber w := by
  refine ⟨isNumber_of_mem, ?_⟩
  rintro @⟨sign, whole, fraction, exponent, hsign, hwhole, hfraction, hexponent⟩
  have hparts : sign ++ whole ++ fraction ++ exponent =
      sign ++ (whole ++ fraction ++ exponent) := by simp
  rw [number_eq, hparts]
  refine Language.append_mem_mul hsign (Language.append_mem_mul (Language.append_mem_mul ?_ ?_) ?_)
  · exact mem_whole_iff.mpr hwhole
  · exact mem_fraction_iff.mpr hfraction
  · exact mem_exponent_iff.mpr hexponent

end Lexeme

namespace Json

theorem IsIntegerPart.isDigit {w : List Char} (h : IsIntegerPart w) :
    ∀ c ∈ w, c.isDigit = true := by
  rcases h with rfl | ⟨⟨-, hdigits⟩, -⟩
  · exact List.forall_mem_singleton.mpr rfl
  · exact hdigits

/-- An integer: a sign, if any, and an integer part. -/
inductive IsInteger : List Char → Prop
  | intro {sign whole : List Char} (hs : sign = [] ∨ sign = ['-']) (hw : IsIntegerPart whole) :
      IsInteger (sign ++ whole)

/-- **An integer is a number without fraction and exponent.** -/
theorem isInteger_iff {w : List Char} :
    IsInteger w ↔ IsNumber w ∧ '.' ∉ w ∧ 'e' ∉ w ∧ 'E' ∉ w := by
  constructor
  · rintro @⟨sign, whole, hsign, hwhole⟩
    have hnumber := IsNumber.intro hsign hwhole (.inl rfl) (.inl rfl)
    rw [List.append_nil, List.append_nil] at hnumber
    have habsent : ∀ c : Char, c.isDigit = false → c ≠ '-' → c ∉ sign ++ whole := by
      intro c hc hminus hmem
      rcases List.mem_append.mp hmem with hmem | hmem
      · rcases hsign with rfl | rfl
        · exact List.not_mem_nil hmem
        · exact hminus (List.mem_singleton.mp hmem)
      · rw [hwhole.isDigit c hmem] at hc
        cases hc
    exact ⟨hnumber, habsent '.' rfl (by decide), habsent 'e' rfl (by decide),
      habsent 'E' rfl (by decide)⟩
  · rintro ⟨⟨hsign, hwhole, hfraction, hexponent⟩, hpoint, he, hE⟩
    rcases hfraction with rfl | ⟨digits, -, rfl⟩
    · rcases hexponent with rfl | ⟨hmark, -, -⟩
      · rw [List.append_nil, List.append_nil]
        exact .intro hsign hwhole
      · rcases hmark with rfl | rfl
        · exact absurd (by simp) he
        · exact absurd (by simp) hE
    · exact absurd (by simp) hpoint

end Json

theorem Lexeme.mem_integer_iff {w : List Char} : w ∈ Lexeme.integer ↔ IsInteger w := by
  constructor
  · intro h
    obtain ⟨sign, hsign, whole, hwhole, rfl⟩ := Language.mem_mul.mp h
    exact .intro hsign (mem_whole_iff.mp hwhole)
  · rintro ⟨hsign, hwhole⟩
    exact Language.append_mem_mul hsign (mem_whole_iff.mpr hwhole)

/-! ## Strings -/

namespace Json

/-- `IsUnits units w`: the string `w` is made of these units, between quotes. -/
def IsUnits (units : List (List Char)) (w : List Char) : Prop :=
  (∀ u ∈ units, IsStringUnit u) ∧ w = '"' :: units.flatten ++ ['"']

theorem isString_iff_exists_isUnits {w : List Char} : IsString w ↔ ∃ units, IsUnits units w := by
  constructor
  · rintro @⟨units, hunits⟩
    exact ⟨units, hunits, rfl⟩
  · rintro ⟨units, hunits, rfl⟩
    exact .intro hunits

/-- **A string is made of units in a single way.** -/
theorem IsUnits.unique {units units' : List (List Char)} {w : List Char} (h : IsUnits units w)
    (h' : IsUnits units' w) : units = units' :=
  (eq_of_units_quote h.1 h'.1 (List.cons.inj (h.2.symm.trans h'.2)).2).1

theorem IsHexDigit.ne_delete {c : Char} (h : IsHexDigit c) : c ≠ '\x7f' := by
  rintro rfl
  rcases h with h | ⟨-, h⟩ | ⟨-, h⟩
  · cases h
  · exact absurd h (by decide)
  · exact absurd h (by decide)

end Json

namespace Lexeme

variable {w : List Char}

theorem mem_hexDigit {c : Char} (h : IsHexDigit c) : [c] ∈ hexDigit := by
  rcases h with h | h | h
  · exact Or.inl (Or.inl (mem_digit h))
  · exact Or.inl (Or.inr ⟨c, h, rfl⟩)
  · exact Or.inr ⟨c, h, rfl⟩

theorem mem_hexDigit_pow {n : Nat} (hn : w.length = n) (h : ∀ c ∈ w, IsHexDigit c) :
    w ∈ hexDigit ^ n := by
  refine Language.mem_pow.mpr ⟨w.map ([·]), (List.flatMap_singleton' w).symm, by simpa using hn, ?_⟩
  exact List.forall_mem_map.mpr fun c hc => mem_hexDigit (h c hc)

/-- The units of the language are those of the syntax, except for a delete character. -/
theorem mem_stringUnit_iff : w ∈ stringUnit ↔ IsStringUnit w ∧ '\x7f' ∉ w := by
  constructor
  · intro h
    refine ⟨isStringUnit_of_mem h, fun hdelete => ?_⟩
    rcases h with (⟨c, ⟨-, -, hne, -⟩, rfl⟩ | h) | h
    · exact hne (List.mem_singleton.mp hdelete).symm
    · obtain ⟨_, rfl, _, ⟨c, hc, rfl⟩, rfl⟩ := Language.mem_mul.mp h
      rw [List.mem_append, List.mem_singleton] at hdelete
      rcases hdelete with hdelete | rfl
      · exact absurd hdelete (by decide)
      · exact absurd hc (by decide)
    · obtain ⟨_, rfl, v, hv, rfl⟩ := Language.mem_mul.mp h
      obtain ⟨parts, rfl, -, hparts⟩ := Language.mem_pow.mp hv
      have hdigits := (letters_of_parts fun u hu => isHexDigit_of_mem (hparts u hu)).2
      rcases List.mem_append.mp hdelete with hdelete | hdelete
      · exact absurd hdelete (by decide)
      · exact (hdigits _ hdelete).ne_delete rfl
  · rintro ⟨h, hdelete⟩
    cases h with
    | @plain c hc hq hb =>
      have hne : c ≠ '\x7f' := fun heq => hdelete (heq ▸ List.mem_cons_self)
      exact Or.inl (Or.inl ⟨c, ⟨hq, hb, hne, not_lt.mpr hc⟩, rfl⟩)
    | @escape c hc => exact Or.inl (Or.inr (Language.append_mem_mul (a := ['\\']) rfl ⟨c, hc, rfl⟩))
    | code hl hd =>
      exact Or.inr (Language.append_mem_mul (a := ['\\', 'u']) rfl (mem_hexDigit_pow hl hd))

theorem mem_quoted {l : Language Char} : w ∈ quoted l ↔ ∃ u ∈ l, w = '"' :: u ++ ['"'] := by
  constructor
  · intro h
    obtain ⟨_, hopen, _, rfl, rfl⟩ := Language.mem_mul.mp h
    obtain ⟨_, rfl, u, hu, rfl⟩ := Language.mem_mul.mp hopen
    exact ⟨u, hu, rfl⟩
  · rintro ⟨u, hu, rfl⟩
    exact Language.append_mem_mul (Language.append_mem_mul (a := ['"']) rfl hu) rfl

end Lexeme

/-- **The words of strings are the string tokens with an admitted number of units**, except for
those that have a delete character. -/
theorem mem_string_iff {bounds : LengthBounds} {w : List Char} :
    w ∈ (Terminal.string bounds).language ↔
      '\x7f' ∉ w ∧ ∃ units, IsUnits units w ∧ Within bounds.least bounds.most units.length := by
  have hquotes : ∀ units : List (List Char),
      '\x7f' ∉ '"' :: units.flatten ++ ['"'] ↔ ∀ u ∈ units, '\x7f' ∉ u := by
    intro units
    simp
  rw [Terminal.language, Lexeme.mem_quoted]
  constructor
  · rintro ⟨u, ⟨k, hk, hu⟩, rfl⟩
    obtain ⟨units, rfl, rfl, hunits⟩ := Language.mem_pow.mp hu
    have hboth := fun u hu => Lexeme.mem_stringUnit_iff.mp (hunits u hu)
    exact ⟨(hquotes units).mpr fun u hu => (hboth u hu).2, units,
      ⟨fun u hu => (hboth u hu).1, rfl⟩, hk⟩
  · rintro ⟨hdelete, units, ⟨hunits, rfl⟩, hk⟩
    refine ⟨units.flatten, ⟨units.length, hk, Language.mem_pow.mpr ⟨units, rfl, rfl, ?_⟩⟩, rfl⟩
    intro u hu
    exact Lexeme.mem_stringUnit_iff.mpr ⟨hunits u hu, (hquotes units).mp hdelete u hu⟩

/-- Without bounds, all string tokens. -/
theorem mem_anyString_iff {w : List Char} :
    w ∈ (Terminal.string {}).language ↔ IsString w ∧ '\x7f' ∉ w := by
  have hall : ∀ n, Within 0 none n := fun n => ⟨Nat.zero_le n, fun m hm => absurd hm (by simp)⟩
  rw [mem_string_iff, isString_iff_exists_isUnits, and_comm]
  refine and_congr_left fun _ => exists_congr fun units => ?_
  exact and_iff_left (hall units.length)

end SchemaGrammar
