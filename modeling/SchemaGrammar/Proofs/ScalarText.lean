import SchemaGrammar.Proofs.ShapeLanguage
import SchemaGrammar.Check.Format

/-!
# The texts of scalars

Integers are written in full, floating-point numbers as the shortest decimal that reads back, in
plain notation or with an exponent. Either way the text is a word of the language of numbers: no
zero in front of other digits, a digit on both sides of a point, and an exponent that is not empty.
All of this rests on one fact about the shortest decimal, that its coefficient is not zero. Zero is
not among the decimals that round to a positive binary number, so no grid has it as a neighbour.

Every character of a string is written as one unit between the quotes, except that the language of
units has no way to write a delete character as it is. A date or a time is written as it is: the
patterns that strings are checked with and the languages of the formats agree on strings whose digits
are all from zero to nine.

## Main results

* `Decimal.Binary.shortest_coefficient_ne_zero`: the shortest decimal is not zero.
* `Json.integer_text_mem`, `Json.Number.text_mem`: the texts of integers, and of all numbers.
* `Json.stringText_mem`: the text of a string without delete characters.
* `TextFormat.accepts_iff`: a string without digits of other scripts has a format if it is one of its
  words.
* `Json.stringText_mem_format`: the text of an ASCII string that has a format.
-/

namespace SchemaGrammar

open scoped Computability

/-! ## The shortest decimal -/

namespace Decimal.Binary

variable {b : Binary}

theorem covers_zero (h : b.mantissa ≠ 0) (p : Int) : b.covers 0 p = false := by
  have hlower : b.lower ≠ 0 := by
    unfold lower quadruple
    split <;> omega
  have htwos : ∀ n, twos n ≠ 0 := fun n => (Nat.pow_pos (by decide)).ne'
  have htens : ∀ n, tens n ≠ 0 := fun n => (Nat.pow_pos (by decide)).ne'
  unfold covers
  split <;> simp [scaled, hlower, htwos, htens]

theorem ne_zero_of_neighbour? (h : b.mantissa ≠ 0) {p : Int} {c : Nat}
    (hc : b.neighbour? p = some c) : c ≠ 0 := by
  -- A neighbour is covered or is the successor of the grid point below.
  have hbelow : ∀ {c}, b.covers c p = true → c ≠ 0 := by
    rintro _ hcov rfl
    simp [covers_zero h] at hcov
  dsimp only [neighbour?] at hc
  split at hc
  · next hcov _ =>
    split_ifs at hc
    · exact Option.some.inj hc ▸ hbelow hcov
    · exact Option.some.inj hc ▸ Nat.succ_ne_zero _
  · next hcov _ => exact Option.some.inj hc ▸ hbelow hcov
  · exact Option.some.inj hc ▸ Nat.succ_ne_zero _
  · cases hc

theorem search_coefficient_ne_zero (h : b.mantissa ≠ 0) (tries count : Nat) :
    (b.search tries count).coefficient ≠ 0 := by
  induction tries generalizing count with
  | zero => exact h
  | succ tries ih =>
    rw [search]
    split
    · next c hc => exact ne_zero_of_neighbour? h hc
    · exact ih (count + 1)

theorem mantissa_ne_zero {bits : UInt64} (h : ofBits? bits = some b) : b.mantissa ≠ 0 := by
  dsimp only [ofBits?] at h
  have htwos : 0 < twos 52 := Nat.pow_pos (by decide)
  split_ifs at h with hbiased hfraction
  · cases h
    exact hfraction
  · cases h
    show twos 52 + _ ≠ 0
    omega

theorem shortest_coefficient_ne_zero {bits : UInt64} (h : ofBits? bits = some b) :
    b.shortest.coefficient ≠ 0 :=
  search_coefficient_ne_zero (mantissa_ne_zero h) 17 1

end Decimal.Binary

/-! ## Digits -/

/-- Digits without a zero in front. -/
structure IsNumeral (w : List Char) : Prop where
  digits : ∀ c ∈ w, c.isDigit = true
  lead : ∃ c ∈ w.head?, c ≠ '0'

theorem isNumeral_toDigits {n : Nat} (h : n ≠ 0) : IsNumeral (Nat.toDigits 10 n) := by
  refine ⟨fun c hc => Nat.isDigit_of_mem_toDigits (by decide) (by decide) hc, ?_⟩
  induction n using Nat.strongRecOn with
  | ind n ih =>
    rw [Nat.toDigits_eq_if (by decide)]
    split_ifs with hn
    · have hdigit : ∀ m < 10, m ≠ 0 → Nat.digitChar m ≠ '0' := by decide
      exact ⟨_, rfl, hdigit n hn h⟩
    · obtain ⟨c, hc, hne⟩ := ih (n / 10) (by omega) (by omega)
      exact ⟨c, by simp [Option.mem_def.mp hc], hne⟩

theorem IsNumeral.ne_nil {w : List Char} (h : IsNumeral w) : w ≠ [] := by
  rintro rfl
  obtain ⟨c, hc, -⟩ := h.lead
  cases hc

theorem IsNumeral.append {u w : List Char} (h : IsNumeral u) (hw : ∀ c ∈ w, c.isDigit = true) :
    IsNumeral (u ++ w) := by
  obtain ⟨c, hc, hne⟩ := h.lead
  exact ⟨List.forall_mem_append.mpr ⟨h.digits, hw⟩, c, by simp [Option.mem_def.mp hc], hne⟩

theorem IsNumeral.of_append {u w : List Char} (h : IsNumeral (u ++ w)) (hu : u ≠ []) :
    IsNumeral u := by
  obtain ⟨c, rest, rfl⟩ := List.exists_cons_of_ne_nil hu
  exact ⟨fun d hd => h.digits d (List.mem_append_left _ hd), h.lead⟩

theorem Decimal.Digits.isNumeral_significant {d : Decimal.Digits} (h : d.coefficient ≠ 0) :
    IsNumeral d.significant := by
  have hall := isNumeral_toDigits h
  have hlead : d.significant <+: Nat.toDigits 10 d.coefficient :=
    List.rdropWhile_prefix (· == '0') _
  obtain ⟨zeros, hzeros⟩ := hlead
  refine IsNumeral.of_append (w := zeros) (hzeros ▸ hall) fun hnil => ?_
  have hzero := List.rdropWhile_eq_nil_iff.mp hnil
  obtain ⟨c, hc, hne⟩ := hall.lead
  exact hne (by simpa using hzero c (List.mem_of_mem_head? hc))

namespace Lexeme

/-- An integer without sign. -/
def whole : Language Char := digit + between '1' '9' * digit∗

/-- A fraction, if any. -/
def fraction : Language Char := 1 + word "." * digits

/-- An exponent, if any. -/
def exponent : Language Char := 1 + among "eE" * (1 + among "-+") * digits

theorem number_eq : number = (1 + word "-") * (whole * fraction * exponent) := by
  simp only [number, integer, whole, fraction, exponent, mul_assoc]

section

variable {w : List Char}

theorem mem_digit {c : Char} (h : c.isDigit = true) : [c] ∈ digit := by
  refine ⟨c, ?_, rfl⟩
  simpa [Char.isDigit, UInt32.le_iff_toNat_le] using h

theorem mem_digit_kstar (h : ∀ c ∈ w, c.isDigit = true) : w ∈ digit∗ := by
  refine Language.mem_kstar.mpr ⟨w.map ([·]), (List.flatMap_singleton' w).symm, fun u hu => ?_⟩
  obtain ⟨c, hc, rfl⟩ := List.mem_map.mp hu
  exact mem_digit (h c hc)

theorem mem_digits (hne : w ≠ []) (h : ∀ c ∈ w, c.isDigit = true) : w ∈ digits := by
  obtain ⟨c, rest, rfl⟩ := List.exists_cons_of_ne_nil hne
  exact Language.append_mem_mul (mem_digit (h c List.mem_cons_self))
    (mem_digit_kstar fun d hd => h d (List.mem_cons_of_mem _ hd))

theorem mem_whole (h : IsNumeral w) : w ∈ whole := by
  obtain ⟨c, hc, hne⟩ := h.lead
  obtain ⟨rest, rfl⟩ := List.head?_eq_some_iff.mp hc
  refine Or.inr (Language.append_mem_mul (a := [c]) ?_
    (mem_digit_kstar fun d hd => h.digits d (List.mem_cons_of_mem _ hd)))
  obtain ⟨c, ⟨hlow, hhigh⟩, heq⟩ := mem_digit (h.digits c List.mem_cons_self)
  cases heq
  refine ⟨c, ⟨?_, hhigh⟩, rfl⟩
  have hzero : c.toNat ≠ '0'.toNat := fun h => hne (Char.toNat_inj.mp h)
  simp only [show '0'.toNat = 48 from rfl, show '1'.toNat = 49 from rfl] at *
  omega

theorem toDigits_mem_whole (n : Nat) : Nat.toDigits 10 n ∈ whole := by
  by_cases hn : n = 0
  · rw [hn]
    exact Or.inl (mem_digit (c := '0') rfl)
  · exact mem_whole (isNumeral_toDigits hn)

theorem toDigits_mem_digits (n : Nat) : Nat.toDigits 10 n ∈ digits :=
  mem_digits Nat.toDigits_ne_nil fun _ hc => Nat.isDigit_of_mem_toDigits (by decide) (by decide) hc

theorem mem_fraction (hne : w ≠ []) (h : ∀ c ∈ w, c.isDigit = true) : '.' :: w ∈ fraction :=
  Or.inr (Language.append_mem_mul (a := ['.']) rfl (mem_digits hne h))

theorem nil_mem_fraction : [] ∈ fraction := Or.inl Language.nil_mem_one

theorem nil_mem_exponent : [] ∈ exponent := Or.inl Language.nil_mem_one

end

theorem integer_le_number : integer ≤ number := by
  intro w (hw : w ∈ integer)
  have hmem : w ++ [] ++ [] ∈ integer * fraction * exponent :=
    Language.append_mem_mul (Language.append_mem_mul hw nil_mem_fraction) nil_mem_exponent
  rwa [List.append_nil, List.append_nil] at hmem

end Lexeme

/-! ## Texts -/

namespace Json

open Lexeme

/-- The text of an integer is an integer. -/
theorem integer_text_mem (n : Int) : (Number.integer n).text.toList ∈ integer := by
  cases n with
  | ofNat n =>
    have htext : (Number.integer (.ofNat n)).text.toList = [] ++ Nat.toDigits 10 n := by
      simp [Number.text, toString, Int.repr, Nat.repr]
    rw [htext]
    exact Language.append_mem_mul (Or.inl Language.nil_mem_one) (toDigits_mem_whole n)
  | negSucc n =>
    have htext : (Number.integer (.negSucc n)).text.toList = ['-'] ++ Nat.toDigits 10 (n + 1) := by
      simp [Number.text, toString, Int.repr, Nat.repr]
    rw [htext]
    exact Language.append_mem_mul (Or.inr rfl) (toDigits_mem_whole (n + 1))

/-- A numeral with a point after its first places, and a zero where no digit is left. -/
theorem pointed_mem {w : List Char} (h : IsNumeral w) (n : Nat) :
    (String.ofList (w.take (n + 1)) ++ "." ++
      (if (w.drop (n + 1)).isEmpty then "0" else String.ofList (w.drop (n + 1)))).toList ∈
        whole * fraction := by
  have hsplit : IsNumeral (w.take (n + 1) ++ w.drop (n + 1)) := by rwa [List.take_append_drop]
  have htake : w.take (n + 1) ≠ [] := by simp [h.ne_nil]
  have hwhole := mem_whole (hsplit.of_append htake)
  split_ifs with hdrop
  · simpa using Language.append_mem_mul hwhole
      (mem_fraction (w := ['0']) (by simp) (by simp))
  · have hdigits : ∀ c ∈ w.drop (n + 1), c.isDigit = true := fun c hc =>
      h.digits c (List.mem_of_mem_drop hc)
    simpa using Language.append_mem_mul hwhole
      (mem_fraction (fun hnil => hdrop (List.isEmpty_iff.mpr hnil)) hdigits)

/-- In plain notation there is a numeral or a single zero before the point. -/
theorem positionalText_mem {d : Decimal.Digits} (h : IsNumeral d.significant)
    (hp : positional d.leading = true) : (decimalText d).toList ∈ whole * fraction := by
  have hzeros : ∀ n, ∀ c ∈ List.replicate n '0', c.isDigit = true := fun n c hc =>
    List.eq_of_mem_replicate hc ▸ rfl
  simp only [decimalText, hp, if_true]
  by_cases hneg : d.leading < 0
  · have hdigits := List.forall_mem_append.mpr ⟨hzeros (d.leading.natAbs - 1), h.digits⟩
    have hne : List.replicate (d.leading.natAbs - 1) '0' ++ d.significant ≠ [] :=
      List.append_ne_nil_of_right_ne_nil _ h.ne_nil
    simpa [hneg] using Language.append_mem_mul (a := ['0']) (Or.inl (mem_digit rfl))
      (mem_fraction hne hdigits)
  · rw [if_neg hneg]
    exact pointed_mem (h.append (hzeros _)) _

theorem mem_exponent {sign : Char} (hsign : sign ∈ "-+".toList) (n : Nat) :
    'e' :: sign :: Nat.toDigits 10 n ∈ exponent := by
  have hmark : ['e'] ∈ among "eE" := ⟨'e', by decide, rfl⟩
  have hsign : [sign] ∈ 1 + among "-+" := Or.inr ⟨sign, hsign, rfl⟩
  exact Or.inr (Language.append_mem_mul (Language.append_mem_mul hmark hsign)
    (toDigits_mem_digits n))

/-- With an exponent, the first digit stands alone before the point. -/
theorem scientificText_mem {d : Decimal.Digits} (h : IsNumeral d.significant)
    (hp : positional d.leading = false) : (decimalText d).toList ∈ whole * fraction * exponent := by
  have hexponent : 'e' :: ((if d.leading < 0 then "-" else "+").toList ++
      Nat.toDigits 10 d.leading.natAbs) ∈ exponent := by
    split_ifs
    · exact mem_exponent (by decide) _
    · exact mem_exponent (by decide) _
  obtain ⟨first, rest, heq⟩ := List.exists_cons_of_ne_nil h.ne_nil
  have hdigits := h.digits
  rw [heq, List.forall_mem_cons] at hdigits
  have hfirst : [first] ∈ whole := Or.inl (mem_digit hdigits.1)
  simp only [decimalText, hp, heq]
  cases rest with
  | nil =>
    simpa [Nat.repr] using Language.append_mem_mul
      (Language.append_mem_mul hfirst nil_mem_fraction) hexponent
  | cons second rest =>
    simpa [Nat.repr] using Language.append_mem_mul
      (Language.append_mem_mul hfirst (mem_fraction (List.cons_ne_nil second rest) hdigits.2))
      hexponent

theorem decimalText_mem {d : Decimal.Digits} (h : d.coefficient ≠ 0) :
    (decimalText d).toList ∈ whole * fraction * exponent := by
  have hnumeral := Decimal.Digits.isNumeral_significant h
  cases hp : positional d.leading with
  | true =>
    simpa using Language.append_mem_mul (positionalText_mem hnumeral hp) nil_mem_exponent
  | false => exact scientificText_mem hnumeral hp

theorem realText_mem (x : Float) : (realText x).toList ∈ number := by
  have hsign : (if x.toBits >>> 63 = 1 then "-" else "").toList ∈ 1 + word "-" := by
    split_ifs
    · exact Or.inr rfl
    · exact Or.inl Language.nil_mem_one
  rw [number_eq]
  dsimp only [realText]
  cases hb : Decimal.Binary.ofBits? x.toBits with
  | none =>
    have hzero : ['0', '.', '0'] ++ [] ∈ whole * fraction * exponent :=
      Language.append_mem_mul (Language.append_mem_mul (a := ['0']) (Or.inl (mem_digit rfl))
        (mem_fraction (w := ['0']) (by simp) (by simp))) nil_mem_exponent
    rw [String.toList_append]
    exact Language.append_mem_mul hsign hzero
  | some b =>
    rw [String.toList_append]
    exact Language.append_mem_mul hsign
      (decimalText_mem (Decimal.Binary.shortest_coefficient_ne_zero hb))

/-- **The text of a number is a number**: no zero in front of other digits, a digit on both sides
of a point, and an exponent that is not empty. -/
theorem Number.text_mem (n : Number) : n.text.toList ∈ number := by
  cases n with
  | integer n => exact integer_le_number (integer_text_mem n)
  | real x => exact realText_mem x

/-! ### Strings -/

theorem hexDigit_mem {n : Nat} (h : n < 16) : [hexDigit n] ∈ Lexeme.hexDigit := by
  have hall : ∀ m < 16, ('0'.toNat ≤ (hexDigit m).toNat ∧ (hexDigit m).toNat ≤ '9'.toNat) ∨
      ('a'.toNat ≤ (hexDigit m).toNat ∧ (hexDigit m).toNat ≤ 'f'.toNat) := by decide
  rcases hall n h with hdigit | hletter
  · exact Or.inl (Or.inl ⟨_, hdigit, rfl⟩)
  · exact Or.inl (Or.inr ⟨_, hletter, rfl⟩)

/-- What is written for a character is one unit. -/
theorem escapedChar_mem {c : Char} (h : c ≠ '\x7f') : escapedChar c ∈ stringUnit := by
  have hescape : ∀ {d : Char}, d ∈ "\"\\/bfnrt".toList → ['\\', d] ∈ stringUnit := fun hd =>
    Or.inl (Or.inr (Language.append_mem_mul (a := ['\\']) rfl ⟨_, hd, rfl⟩))
  unfold escapedChar
  split_ifs with hquote hslash _ _ _ _ _ hcontrol
  · exact hescape (by decide)
  · exact hescape (by decide)
  · exact hescape (by decide)
  · exact hescape (by decide)
  · exact hescape (by decide)
  · exact hescape (by decide)
  · exact hescape (by decide)
  · have hdigits : ['0', '0', hexDigit (c.toNat / 16), hexDigit (c.toNat % 16)] ∈
        Lexeme.hexDigit ^ 4 := by
      refine Language.mem_pow.mpr ⟨[['0'], ['0'], [hexDigit (c.toNat / 16)],
        [hexDigit (c.toNat % 16)]], rfl, rfl, ?_⟩
      have hzero : ['0'] ∈ Lexeme.hexDigit := hexDigit_mem (n := 0) (by decide)
      have hhigh := hexDigit_mem (n := c.toNat / 16) (by omega)
      have hlow := hexDigit_mem (n := c.toNat % 16) (by omega)
      simp [hzero, hhigh, hlow]
    exact Or.inr (Language.append_mem_mul (a := ['\\', 'u']) rfl hdigits)
  · exact Or.inl (Or.inl ⟨c, ⟨hquote, hslash, h, hcontrol⟩, rfl⟩)

theorem stringText_toList (s : String) :
    (stringText s).toList = ['"'] ++ (s.toList.map escapedChar).flatten ++ ['"'] := by
  simp [stringText, List.flatMap]

/-- **The text of a string has as many units as the string has characters.** -/
theorem stringText_mem {s : String} (h : '\x7f' ∉ s.toList) {bounds : LengthBounds}
    (hb : Grammar.Within bounds.least bounds.most s.length) :
    (stringText s).toList ∈ quoted (counted bounds stringUnit) := by
  rw [stringText_toList]
  refine Language.append_mem_mul (Language.append_mem_mul rfl ⟨s.length, hb, ?_⟩) rfl
  refine Language.mem_pow.mpr ⟨s.toList.map escapedChar, rfl, by simp [String.length_toList], ?_⟩
  exact List.forall_mem_map.mpr fun c hc => escapedChar_mem fun heq => h (heq ▸ hc)

end Json

/-! ## Dates and times -/

/-- Among the digits of all scripts, the ASCII ones are those from zero to nine. -/
theorem Text.isDigit_of_isDecimalDigit {c : Char} (hascii : c.toNat < 128)
    (h : isDecimalDigit c = true) : c.isDigit = true := by
  obtain ⟨first, hfirst, hrange⟩ := List.any_eq_true.mp h
  have hzeros : ∀ n ∈ digitZeros, n = 0x30 ∨ 128 ≤ n := by
    have hall : digitZeros.all (fun n => n == 0x30 || 128 ≤ n) = true := by decide
    intro n hn
    simpa using List.all_eq_true.mp hall n hn
  rw [Bool.and_eq_true, decide_eq_true_eq, decide_eq_true_eq] at hrange
  rcases hzeros first hfirst with rfl | hlarge
  · exact Char.isDigit_iff_toNat.mpr ⟨hrange.1, Nat.lt_succ_iff.mp hrange.2⟩
  · omega

theorem toNat_lt_of_isDigit {c : Char} (h : c.isDigit = true) : c.toNat < 128 :=
  (Char.isDigit_iff_toNat.mp h).2.trans_lt (by decide)

namespace Pattern

/-- The ASCII words of a pattern. -/
def language : Pattern → Language Char
  | .char allowed => {w | ∃ c : Char, (allowed c = true ∧ c.toNat < 128) ∧ w = [c]}
  | .follow first second => first.language * second.language
  | .either left right => left.language + right.language
  | .optional inner => 1 + inner.language

/-- Whether all characters that a pattern allows are ASCII or digits. -/
def IsOrdinary : Pattern → Prop
  | .char allowed => ∀ c, allowed c = true → c.toNat < 128 ∨ Text.isDecimalDigit c = true
  | .follow first second => first.IsOrdinary ∧ second.IsOrdinary
  | .either left right => left.IsOrdinary ∧ right.IsOrdinary
  | .optional inner => inner.IsOrdinary

/-- **A match leaves what stands after a word of the pattern.** -/
theorem mem_rests_iff {p : Pattern} (hp : p.IsOrdinary) {text rest : List Char}
    (hdigits : ∀ c ∈ text, Text.isDecimalDigit c = true → c.isDigit = true) :
    rest ∈ p.rests text ↔ ∃ w ∈ p.language, text = w ++ rest := by
  induction p generalizing text rest with
  | char allowed =>
    cases text with
    | nil =>
      refine iff_of_false List.not_mem_nil ?_
      rintro ⟨_, ⟨c, -, rfl⟩, ⟨⟩⟩
    | cons c text =>
      rw [rests]
      constructor
      · intro h
        split_ifs at h with hc
        · have hascii : c.toNat < 128 := (hp c hc).elim id fun hd =>
            toNat_lt_of_isDigit (hdigits c List.mem_cons_self hd)
          rw [List.mem_singleton.mp h]
          exact ⟨[c], ⟨c, ⟨hc, hascii⟩, rfl⟩, rfl⟩
        · cases h
      · rintro ⟨_, ⟨d, ⟨hd, -⟩, rfl⟩, heq⟩
        cases heq
        rw [if_pos hd]
        exact List.mem_singleton_self _
  | follow first second ihf ihs =>
    rw [rests, List.mem_flatMap]
    constructor
    · rintro ⟨middle, hmiddle, hrest⟩
      obtain ⟨u, hu, rfl⟩ := (ihf hp.1 hdigits).mp hmiddle
      obtain ⟨v, hv, rfl⟩ :=
        (ihs hp.2 fun c hc => hdigits c (List.mem_append_right u hc)).mp hrest
      exact ⟨u ++ v, Language.append_mem_mul hu hv, (List.append_assoc u v rest).symm⟩
    · rintro ⟨_, ⟨u, hu, v, hv, rfl⟩, rfl⟩
      refine ⟨v ++ rest, (ihf hp.1 hdigits).mpr ⟨u, hu, List.append_assoc u v rest⟩, ?_⟩
      refine (ihs hp.2 fun c hc => hdigits c ?_).mpr ⟨v, hv, rfl⟩
      rw [List.append_assoc]
      exact List.mem_append_right u hc
  | either left right ihl ihr =>
    rw [rests, List.mem_append, ihl hp.1 hdigits, ihr hp.2 hdigits]
    constructor
    · rintro (⟨w, hw, heq⟩ | ⟨w, hw, heq⟩)
      · exact ⟨w, Or.inl hw, heq⟩
      · exact ⟨w, Or.inr hw, heq⟩
    · rintro ⟨w, hw | hw, heq⟩
      · exact Or.inl ⟨w, hw, heq⟩
      · exact Or.inr ⟨w, hw, heq⟩
  | optional inner ih =>
    rw [rests, List.mem_append, List.mem_singleton, ih hp hdigits]
    constructor
    · rintro (⟨w, hw, heq⟩ | rfl)
      · exact ⟨w, Or.inr hw, heq⟩
      · exact ⟨[], Or.inl Language.nil_mem_one, rfl⟩
    · rintro ⟨w, rfl | hw, heq⟩
      · exact Or.inr heq.symm
      · exact Or.inl ⟨w, hw, heq⟩

theorem accepts_iff {p : Pattern} (hp : p.IsOrdinary) {text : String}
    (hdigits : ∀ c ∈ text.toList, Text.isDecimalDigit c = true → c.isDigit = true) :
    p.accepts text = true ↔ text.toList ∈ p.language := by
  rw [accepts, List.any_eq_true]
  constructor
  · rintro ⟨rest, hrest, hempty⟩
    obtain ⟨w, hw, heq⟩ := (mem_rests_iff hp hdigits).mp hrest
    rw [List.isEmpty_iff.mp hempty, List.append_nil] at heq
    rwa [heq]
  · intro hw
    exact ⟨[], (mem_rests_iff hp hdigits).mpr ⟨_, hw, (List.append_nil _).symm⟩, rfl⟩

/-! ### The patterns of dates and times allow ASCII and digits -/

theorem isOrdinary_just {c : Char} (h : c.toNat < 128) : (just c).IsOrdinary := by
  intro d hd
  rw [eq_of_beq hd]
  exact Or.inl h

theorem isOrdinary_between {first last : Char} (h : last.toNat < 128) :
    (between first last).IsOrdinary := by
  intro c hc
  rw [Bool.and_eq_true, decide_eq_true_eq, decide_eq_true_eq] at hc
  exact Or.inl (lt_of_le_of_lt hc.2 h)

theorem isOrdinary_digit : digit.IsOrdinary := fun _ hc => Or.inr hc

theorem isOrdinary_date : date.IsOrdinary := by
  simp (disch := decide) only [date, chain, List.foldl_cons, List.foldl_nil, IsOrdinary,
    isOrdinary_just, isOrdinary_between, isOrdinary_digit, and_self]

theorem isOrdinary_time : time.IsOrdinary := by
  simp (disch := decide) only [time, hours, minutes, chain, List.foldl_cons, List.foldl_nil,
    IsOrdinary, isOrdinary_just, isOrdinary_between, isOrdinary_digit, and_self]

/-! ### The ASCII words of dates and times -/

open Lexeme

theorem language_just {c : Char} (h : c.toNat < 128) :
    (just c).language = word (String.singleton c) := by
  ext w
  constructor
  · rintro ⟨d, ⟨hd, -⟩, rfl⟩
    rw [eq_of_beq hd]
    exact Lexeme.mem_word.mpr (by simp)
  · intro hw
    exact ⟨c, ⟨beq_self_eq_true c, h⟩, by simpa [Lexeme.mem_word] using hw⟩

theorem language_between {first last : Char} (h : last.toNat < 128) :
    (between first last).language = Lexeme.between first last := by
  ext w
  constructor
  · rintro ⟨c, ⟨hc, -⟩, rfl⟩
    rw [Bool.and_eq_true, decide_eq_true_eq, decide_eq_true_eq] at hc
    exact ⟨c, hc, rfl⟩
  · rintro ⟨c, hc, rfl⟩
    refine ⟨c, ⟨?_, lt_of_le_of_lt hc.2 h⟩, rfl⟩
    rw [Bool.and_eq_true, decide_eq_true_eq, decide_eq_true_eq]
    exact hc

theorem language_digit : digit.language = Lexeme.digit := by
  ext w
  constructor
  · rintro ⟨c, ⟨hc, hascii⟩, rfl⟩
    exact ⟨c, Char.isDigit_iff_toNat.mp (Text.isDigit_of_isDecimalDigit hascii hc), rfl⟩
  · rintro ⟨c, hc, rfl⟩
    have hdigit : c.isDigit = true := Char.isDigit_iff_toNat.mpr hc
    exact ⟨c, ⟨Text.isDecimalDigit_of_isDigit hdigit, toNat_lt_of_isDigit hdigit⟩, rfl⟩

theorem among_eq_between {first last : Char} {members : String}
    (h : ∀ n, first.toNat ≤ n → n ≤ last.toNat → n ∈ members.toList.map Char.toNat)
    (h' : (members.toList.all fun c => first ≤ c && c ≤ last) = true) :
    among members = Lexeme.between first last := by
  ext w
  constructor
  · rintro ⟨c, hc, rfl⟩
    have hrange := List.all_eq_true.mp h' c hc
    rw [Bool.and_eq_true, decide_eq_true_eq, decide_eq_true_eq] at hrange
    exact ⟨c, hrange, rfl⟩
  · rintro ⟨c, ⟨hlow, hhigh⟩, rfl⟩
    obtain ⟨d, hd, heq⟩ := List.mem_map.mp (h c.toNat hlow hhigh)
    exact ⟨c, Char.toNat_inj.mp heq ▸ hd, rfl⟩

theorem language_date : date.language = Lexeme.date := by
  have hmonth : among "012" = Lexeme.between '0' '2' := among_eq_between (by decide) (by decide)
  have htens : among "12" = Lexeme.between '1' '2' := among_eq_between (by decide) (by decide)
  have hlast : among "01" = Lexeme.between '0' '1' := among_eq_between (by decide) (by decide)
  have hdash : (just '-').language = word "-" := language_just (by decide)
  have hzero : (just '0').language = word "0" := language_just (by decide)
  have hone : (just '1').language = word "1" := language_just (by decide)
  have hthree : (just '3').language = word "3" := language_just (by decide)
  simp (disch := decide) only [date, chain, List.foldl_cons, List.foldl_nil, language,
    language_digit, language_between, hdash, hzero, hone, hthree]
  simp only [Lexeme.date, hmonth, htens, hlast, pow_succ, pow_zero, one_mul, add_assoc]

theorem language_hours : hours.language = Lexeme.hours := by
  have htens : among "01" = Lexeme.between '0' '1' := among_eq_between (by decide) (by decide)
  have htwo : (just '2').language = word "2" := language_just (by decide)
  simp (disch := decide) only [hours, chain, List.foldl_cons, List.foldl_nil, language,
    language_digit, language_between, htwo, Lexeme.hours, htens]

theorem language_minutes : minutes.language = Lexeme.minutes := by
  simp (disch := decide) only [minutes, chain, List.foldl_cons, List.foldl_nil, language,
    language_digit, language_between, Lexeme.minutes]

theorem language_time : time.language = Lexeme.time := by
  have hcolon : (just ':').language = word ":" := language_just (by decide)
  have hpoint : (just '.').language = word "." := language_just (by decide)
  have hzone : (just 'Z').language = word "Z" := language_just (by decide)
  have hplus : (just '+').language = word "+" := language_just (by decide)
  have hminus : (just '-').language = word "-" := language_just (by decide)
  simp only [time, chain, List.foldl_cons, List.foldl_nil, language, language_digit,
    language_hours, language_minutes, hcolon, hpoint, hzone, hplus, hminus]
  simp only [Lexeme.time, pow_succ, pow_zero, one_mul, mul_assoc]

end Pattern

namespace Lexeme

/-! ### Dates and times have plain letters -/

/-- The words over some letters. -/
def spelled (p : Char → Bool) : Language Char := {w | ∀ c ∈ w, p c = true}

section

variable {p : Char → Bool} {a b : Language Char}

theorem mul_le_spelled (ha : a ≤ spelled p) (hb : b ≤ spelled p) : a * b ≤ spelled p := by
  rintro _ ⟨u, hu, v, hv, rfl⟩
  exact List.forall_mem_append.mpr ⟨ha hu, hb hv⟩

theorem add_le_spelled (ha : a ≤ spelled p) (hb : b ≤ spelled p) : a + b ≤ spelled p :=
  sup_le ha hb

theorem one_le_spelled : 1 ≤ spelled p := by
  rintro _ rfl c hc
  cases hc

theorem pow_le_spelled (ha : a ≤ spelled p) (n : Nat) : a ^ n ≤ spelled p := by
  induction n with
  | zero => exact one_le_spelled
  | succ n ih =>
    rw [pow_succ]
    exact mul_le_spelled ih ha

theorem word_le_spelled {text : String} (h : text.toList.all p = true) : word text ≤ spelled p := by
  rintro _ rfl
  exact List.all_eq_true.mp h

theorem among_le_spelled {members : String} (h : members.toList.all p = true) :
    among members ≤ spelled p := by
  rintro _ ⟨c, hc, rfl⟩
  exact List.forall_mem_singleton.mpr (List.all_eq_true.mp h c hc)

end

/-- Whether a character stands for itself between quotes. -/
def isPlainChar (c : Char) : Bool := c ≠ '"' && c ≠ '\\' && c ≠ '\x7f' && 0x20 ≤ c.toNat

theorem mem_plain_of_isPlainChar {c : Char} (h : isPlainChar c = true) : [c] ∈ plain := by
  refine ⟨c, ?_, rfl⟩
  simpa [isPlainChar, and_assoc] using h

theorem between_le_spelled {first last : Char} (hf : '0'.toNat ≤ first.toNat)
    (hl : last.toNat ≤ '9'.toNat) : between first last ≤ spelled isPlainChar := by
  rintro w ⟨c, ⟨hlow, hhigh⟩, rfl⟩
  have hlow' : 48 ≤ c.toNat := hf.trans hlow
  have hhigh' : c.toNat ≤ 57 := hhigh.trans hl
  have hne : ∀ d : Char, d.toNat < 48 ∨ 57 < d.toNat → c ≠ d := by
    rintro d hd rfl
    omega
  have hspace : 0x20 ≤ c.toNat := by omega
  refine List.forall_mem_singleton.mpr ?_
  simp [isPlainChar, hne '"' (by decide), hne '\\' (by decide), hne '\x7f' (by decide), hspace]

theorem digit_le_spelled : digit ≤ spelled isPlainChar := between_le_spelled le_rfl le_rfl

theorem date_le_spelled : date ≤ spelled isPlainChar := by
  have hdash : word "-" ≤ spelled isPlainChar := word_le_spelled (by decide)
  have hmonth : word "0" * between '1' '9' + word "1" * among "012" ≤ spelled isPlainChar :=
    add_le_spelled
      (mul_le_spelled (word_le_spelled (by decide)) (between_le_spelled (by decide) (by decide)))
      (mul_le_spelled (word_le_spelled (by decide)) (among_le_spelled (by decide)))
  have hday : word "0" * between '1' '9' + among "12" * digit + word "3" * among "01" ≤
      spelled isPlainChar :=
    add_le_spelled (add_le_spelled
      (mul_le_spelled (word_le_spelled (by decide)) (between_le_spelled (by decide) (by decide)))
      (mul_le_spelled (among_le_spelled (by decide)) digit_le_spelled))
      (mul_le_spelled (word_le_spelled (by decide)) (among_le_spelled (by decide)))
  exact mul_le_spelled (mul_le_spelled (mul_le_spelled (mul_le_spelled
    (pow_le_spelled digit_le_spelled 4) hdash) hmonth) hdash) hday

theorem hours_le_spelled : hours ≤ spelled isPlainChar :=
  add_le_spelled (mul_le_spelled (among_le_spelled (by decide)) digit_le_spelled)
    (mul_le_spelled (word_le_spelled (by decide)) (between_le_spelled (by decide) (by decide)))

theorem minutes_le_spelled : minutes ≤ spelled isPlainChar :=
  mul_le_spelled (between_le_spelled (by decide) (by decide)) digit_le_spelled

theorem time_le_spelled : time ≤ spelled isPlainChar := by
  have hcolon : word ":" ≤ spelled isPlainChar := word_le_spelled (by decide)
  have hfraction : 1 + word "." * digit ^ 3 ≤ spelled isPlainChar :=
    add_le_spelled one_le_spelled
      (mul_le_spelled (word_le_spelled (by decide)) (pow_le_spelled digit_le_spelled 3))
  have hsign : word "+" + word "-" ≤ spelled isPlainChar :=
    add_le_spelled (word_le_spelled (by decide)) (word_le_spelled (by decide))
  have hzone : word "Z" + (word "+" + word "-") * hours * word ":" * minutes ≤ spelled isPlainChar :=
    add_le_spelled (word_le_spelled (by decide))
      (mul_le_spelled (mul_le_spelled (mul_le_spelled hsign hours_le_spelled) hcolon)
        minutes_le_spelled)
  exact mul_le_spelled (mul_le_spelled (mul_le_spelled (mul_le_spelled (mul_le_spelled
    (mul_le_spelled hours_le_spelled hcolon) minutes_le_spelled) hcolon) minutes_le_spelled)
      hfraction) hzone

end Lexeme

theorem TextFormat.language_le_spelled (f : TextFormat) :
    f.language ≤ Lexeme.spelled Lexeme.isPlainChar := by
  cases f with
  | date => exact Lexeme.date_le_spelled
  | time => exact Lexeme.time_le_spelled
  | dateTime =>
    exact Lexeme.mul_le_spelled (Lexeme.mul_le_spelled Lexeme.date_le_spelled
      (Lexeme.word_le_spelled (by decide))) Lexeme.time_le_spelled

theorem TextFormat.isOrdinary_pattern (f : TextFormat) : f.pattern.IsOrdinary := by
  cases f with
  | date => exact Pattern.isOrdinary_date
  | time => exact Pattern.isOrdinary_time
  | dateTime =>
    exact ⟨⟨Pattern.isOrdinary_date, Pattern.isOrdinary_just (by decide)⟩, Pattern.isOrdinary_time⟩

theorem TextFormat.language_pattern (f : TextFormat) : f.pattern.language = f.language := by
  cases f with
  | date => exact Pattern.language_date
  | time => exact Pattern.language_time
  | dateTime =>
    have hmark : (Pattern.just 'T').language = Lexeme.word "T" :=
      Pattern.language_just (by decide)
    simp only [TextFormat.pattern, TextFormat.language, Pattern.chain, List.foldl_cons,
      List.foldl_nil, Pattern.language, Pattern.language_date, hmark, Pattern.language_time]

/-- **A string whose digits are from zero to nine has a format if it is one of its words.** -/
theorem TextFormat.accepts_iff {f : TextFormat} {text : String}
    (hdigits : ∀ c ∈ text.toList, Text.isDecimalDigit c = true → c.isDigit = true) :
    f.accepts text = true ↔ text.toList ∈ f.language := by
  rw [TextFormat.accepts, Pattern.accepts_iff f.isOrdinary_pattern hdigits, f.language_pattern]

theorem Json.escapedChar_eq_singleton {c : Char} (h : Lexeme.isPlainChar c = true) :
    escapedChar c = [c] := by
  obtain ⟨_, ⟨hquote, hslash, -, hcontrol⟩, heq⟩ := Lexeme.mem_plain_of_isPlainChar h
  cases heq
  have hne : ∀ d : Char, d.toNat < 0x20 → c ≠ d := by
    rintro d hd rfl
    exact hcontrol hd
  simp [escapedChar, hquote, hslash, hcontrol, hne '\x08' (by decide), hne '\x0c' (by decide),
    hne '\n' (by decide), hne '\r' (by decide), hne '\t' (by decide)]

/-- The text of a string whose characters stand for themselves. -/
theorem Json.stringText_mem_quoted {l : Language Char}
    (hl : l ≤ Lexeme.spelled Lexeme.isPlainChar) {text : String} (h : text.toList ∈ l) :
    (stringText text).toList ∈ Lexeme.quoted l := by
  have hplain : text.toList.map escapedChar = text.toList.map ([·]) :=
    List.map_congr_left fun c hc => escapedChar_eq_singleton (hl h c hc)
  have hflat : (text.toList.map escapedChar).flatten = text.toList := by
    rw [hplain]
    exact List.flatMap_singleton' _
  rw [stringText_toList, hflat]
  exact Language.append_mem_mul (Language.append_mem_mul rfl h) rfl

/-- The text of an ASCII string that has a format. -/
theorem Json.stringText_mem_format {f : TextFormat} {text : String}
    (hascii : ∀ c ∈ text.toList, c.toNat < 128) (h : f.accepts text = true) :
    (stringText text).toList ∈ Lexeme.quoted f.language := by
  have hdigits : ∀ c ∈ text.toList, Text.isDecimalDigit c = true → c.isDigit = true :=
    fun c hc hd => Text.isDigit_of_isDecimalDigit (hascii c hc) hd
  exact stringText_mem_quoted f.language_le_spelled ((TextFormat.accepts_iff hdigits).mp h)

end SchemaGrammar
