import SchemaGrammar.Json.Reader
import SchemaGrammar.Proofs.JsonSyntax

/-!
# Reading strings

Between quotes, a character is spelled by itself, by an escape of one letter, by a code unit or by
a pair of code units. The reader of strings accepts exactly the spellings of characters up to the
first quote, and gives these characters.

No unit of the syntax of strings begins another one, so a text has at most one closing quote after
units. Hence what is read from a string does not depend on the text that follows it, whether or not
the string can be read: a code unit that is half of a pair is a unit of the syntax and spells
nothing.

## Main definitions

* `Json.Spells`, `Json.SpelledBy`: the spellings of a character, and of characters in a row.
* `Json.Names`: the texts of a string.

## Main results

* `Json.stringBody_eq_ok_iff`: what the reader of strings accepts.
* `Json.names_stringText`: the printed form of a string is a text of it.
* `Json.IsString.names_of_string`: a string is read up to its own closing quote.
-/

namespace SchemaGrammar

namespace Json

/-! ## Spellings -/

/-- What stands for a character between quotes. -/
inductive Spells : List Char → Char → Prop
  | plain {c : Char} (hc : ¬ c.toNat < 0x20) (hq : c ≠ '"') (hb : c ≠ '\\') : Spells [c] c
  | escape {letter c : Char} (h : shortEscape? letter = some c) : Spells ['\\', letter] c
  | code {a b c d : Char} {unit : Nat} (h : codeUnit? a b c d = some unit)
      (hc : isClosing unit = false) (hl : isLeading unit = false) :
      Spells ['\\', 'u', a, b, c, d] (Char.ofNat unit)
  | pair {a b c d a' b' c' d' : Char} {first second : Nat} (h : codeUnit? a b c d = some first)
      (h' : codeUnit? a' b' c' d' = some second) (hl : isLeading first = true)
      (hc : isClosing second = true) :
      Spells ['\\', 'u', a, b, c, d, '\\', 'u', a', b', c', d'] (ofPair first second)

/-- Spellings in a row. -/
inductive SpelledBy : List Char → List Char → Prop
  | nil : SpelledBy [] []
  | cons {u w : List Char} {c : Char} {chars : List Char} (h : Spells u c)
      (hs : SpelledBy w chars) : SpelledBy (u ++ w) (c :: chars)

theorem isClosing_of_isLeading {unit : Nat} (h : isLeading unit = true) :
    isClosing unit = false := by
  simp only [isLeading, isClosing, Bool.and_eq_true, decide_eq_true_eq, Bool.and_eq_false_iff,
    decide_eq_false_iff_not] at h ⊢
  omega

/-- A spelling is read as its character. -/
theorem Spells.stringBody_append {u : List Char} {c : Char} (h : Spells u c) (read w : List Char)
    (offset : Nat) :
    ∃ offset', stringBody read (u ++ w) offset = stringBody (c :: read) w offset' := by
  cases h with
  | plain hc hq hb =>
    refine ⟨offset + c.utf8Size, ?_⟩
    rw [List.singleton_append, stringBody, if_neg hc] <;> simp_all
  | @escape letter c h =>
    refine ⟨offset + 2, ?_⟩
    have hletter : letter ≠ 'u' := by
      rintro rfl
      cases h
    show stringBody read ('\\' :: letter :: w) offset = _
    rw [stringBody]
    · simp [h]
    all_goals simp_all
  | code h hc hl =>
    refine ⟨offset + 6, ?_⟩
    simp [stringBody, h, hc, hl]
  | pair h h' hl hc =>
    refine ⟨offset + 12, ?_⟩
    simp [stringBody, h, h', hc, hl, isClosing_of_isLeading hl]

/-- **The reader of strings accepts spellings up to the first quote.** -/
theorem stringBody_eq_ok_iff {read w rest : List Char} {offset : Nat} {text : String} :
    (∃ offset', stringBody read w offset = .ok (text, ⟨rest, offset'⟩)) ↔
      ∃ u chars, SpelledBy u chars ∧ w = u ++ '"' :: rest ∧
        text = String.ofList (read.reverse ++ chars) := by
  constructor
  · rintro ⟨offset', h⟩
    fun_induction stringBody read w offset with
    | case2 read rest offset =>
      cases h
      exact ⟨[], [], .nil, rfl, by simp⟩
    | case7 read a b c d offset first hfirst _ hl e f g i rest second hsecond hc ih =>
      obtain ⟨u, chars, hu, rfl, rfl⟩ := ih h
      exact ⟨_, _, .cons (.pair hfirst hsecond hl hc) hu, rfl, by simp⟩
    | case10 read a b c d rest offset unit hunit hc hl ih =>
      obtain ⟨u, chars, hu, rfl, rfl⟩ := ih h
      exact ⟨_, _, .cons (.code hunit (by simpa using hc) (by simpa using hl)) hu, rfl, by simp⟩
    | case12 read letter rest offset _ _ c hletter ih =>
      obtain ⟨u, chars, hu, rfl, rfl⟩ := ih h
      exact ⟨_, _, .cons (.escape hletter) hu, rfl, by simp⟩
    | case15 read c rest offset hq hlast _ _ hb hc ih =>
      obtain ⟨u, chars, hu, rfl, rfl⟩ := ih h
      refine ⟨_, _, .cons (.plain hc hq ?_) hu, rfl, by simp⟩
      rintro rfl
      cases hw : u ++ '"' :: rest with
      | nil => exact hlast rfl hw
      | cons letter _ => exact hb letter _ rfl hw
    | _ => cases h
  · rintro ⟨u, chars, hu, rfl, rfl⟩
    induction hu generalizing read offset with
    | nil => exact ⟨offset + 1, by simp [stringBody]⟩
    | @cons u w c chars h hs ih =>
      obtain ⟨between, hstep⟩ := h.stringBody_append read (w ++ '"' :: rest) offset
      obtain ⟨offset', hrun⟩ := @ih (c :: read) between
      refine ⟨offset', ?_⟩
      rw [List.append_assoc, hstep, hrun]
      simp

/-! ## Printed strings -/

theorem spells_escapedChar (c : Char) : Spells (escapedChar c) c := by
  unfold escapedChar
  split_ifs with h₁ h₂ h₃ h₄ h₅ h₆ h₇ h₈
  -- The first seven have an escape of one letter.
  iterate 7
    subst_vars
    exact .escape rfl
  · have hcontrol : ∀ n < 0x20,
        codeUnit? '0' '0' (hexDigit (n / 16)) (hexDigit (n % 16)) = some n ∧
          isClosing n = false ∧ isLeading n = false := by decide
    obtain ⟨hunit, hc, hl⟩ := hcontrol c.toNat h₈
    have h := Spells.code hunit hc hl
    rwa [Char.ofNat_toNat] at h
  · exact .plain h₈ h₁ h₂

theorem spelledBy_escapedChar (chars : List Char) :
    SpelledBy (chars.flatMap escapedChar) chars := by
  induction chars with
  | nil => exact .nil
  | cons c chars ih => exact .cons (spells_escapedChar c) ih

/-! ## Units of the syntax -/

theorem isHexDigit_of_hexValue? {c : Char} {n : Nat} (h : hexValue? c = some n) : IsHexDigit c := by
  unfold hexValue? at h
  split_ifs at h with h₁ h₂ h₃
  · exact .inl h₁
  · exact .inr (.inl (by simpa using h₂))
  · exact .inr (.inr (by simpa using h₃))

theorem isStringUnit_of_codeUnit? {a b c d : Char} {unit : Nat}
    (h : codeUnit? a b c d = some unit) : IsStringUnit ['\\', 'u', a, b, c, d] := by
  simp only [codeUnit?, Option.bind_eq_bind, Option.bind_eq_some_iff] at h
  obtain ⟨_, ha, _, hb, _, hc, _, hd, -⟩ := h
  refine .code rfl ?_
  simp only [List.forall_mem_cons]
  exact ⟨isHexDigit_of_hexValue? ha, isHexDigit_of_hexValue? hb, isHexDigit_of_hexValue? hc,
    isHexDigit_of_hexValue? hd, by simp⟩

/-- A spelling is a unit, or two. -/
theorem Spells.exists_units {u : List Char} {c : Char} (h : Spells u c) :
    ∃ units : List (List Char), (∀ x ∈ units, IsStringUnit x) ∧ u = units.flatten := by
  cases h with
  | plain hc hq hb =>
    exact ⟨[[c]], by simpa using .plain (not_lt.mp hc) hq hb, rfl⟩
  | @escape letter c h =>
    refine ⟨[['\\', letter]], ?_, rfl⟩
    have hletter : letter ∈ ['"', '\\', '/', 'b', 'f', 'n', 'r', 't'] := by
      unfold shortEscape? at h
      split at h <;> simp_all
    simpa using .escape hletter
  | code h hc hl => exact ⟨[_], by simpa using isStringUnit_of_codeUnit? h, rfl⟩
  | @pair a b c d a' b' c' d' first second h h' hl hc =>
    refine ⟨[['\\', 'u', a, b, c, d], ['\\', 'u', a', b', c', d']], ?_, rfl⟩
    simpa using ⟨isStringUnit_of_codeUnit? h, isStringUnit_of_codeUnit? h'⟩

theorem SpelledBy.exists_units {w chars : List Char} (h : SpelledBy w chars) :
    ∃ units : List (List Char), (∀ x ∈ units, IsStringUnit x) ∧ w = units.flatten := by
  induction h with
  | nil => exact ⟨[], by simp, rfl⟩
  | cons hu _ ih =>
    obtain ⟨first, hfirst, rfl⟩ := hu.exists_units
    obtain ⟨units, hunits, rfl⟩ := ih
    exact ⟨first ++ units, List.forall_mem_append.mpr ⟨hfirst, hunits⟩, by simp⟩

/-- No unit begins another one. -/
theorem IsStringUnit.eq_of_append {u u' w w' : List Char} (h : IsStringUnit u)
    (h' : IsStringUnit u') (heq : u ++ w = u' ++ w') : u = u' := by
  cases h with
  | plain hc hq hb =>
    cases h' with
    | plain hc' hq' hb' => rw [(List.cons.inj heq).1]
    | escape hc' => exact absurd (List.cons.inj heq).1 hb
    | code hl' hd' => exact absurd (List.cons.inj heq).1 hb
  | escape hc =>
    cases h' with
    | plain hc' hq' hb' => exact absurd (List.cons.inj heq).1.symm hb'
    | escape hc' => simp_all
    | code hl' hd' =>
      simp only [List.cons_append, List.cons.injEq] at heq
      obtain ⟨-, rfl, -⟩ := heq
      simp at hc
  | code hl hd =>
    cases h' with
    | plain hc' hq' hb' => exact absurd (List.cons.inj heq).1.symm hb'
    | escape hc' =>
      simp only [List.cons_append, List.cons.injEq] at heq
      obtain ⟨-, rfl, -⟩ := heq
      simp at hc'
    | code hl' hd' =>
      simp only [List.cons_append, List.cons.injEq, true_and] at heq
      rw [List.append_inj_left heq (hl.trans hl'.symm)]

theorem IsStringUnit.append_ne_quote {u w w' : List Char} (h : IsStringUnit u) :
    u ++ w ≠ '"' :: w' := by
  cases h with
  | plain hc hq hb => simp [hq]
  | escape hc => simp
  | code hl hd => simp

/-- The closing quote is the first one after units. -/
theorem eq_of_units_quote {units units' : List (List Char)} {w w' : List Char}
    (h : ∀ u ∈ units, IsStringUnit u) (h' : ∀ u ∈ units', IsStringUnit u)
    (heq : units.flatten ++ '"' :: w = units'.flatten ++ '"' :: w') : units = units' ∧ w = w' := by
  induction units generalizing units' with
  | nil =>
    cases units' with
    | nil => simpa using heq
    | cons u' units' =>
      obtain ⟨hu', -⟩ := List.forall_mem_cons.mp h'
      rw [List.flatten_cons, List.append_assoc] at heq
      exact absurd heq.symm hu'.append_ne_quote
  | cons u units ih =>
    obtain ⟨hu, hunits⟩ := List.forall_mem_cons.mp h
    cases units' with
    | nil =>
      rw [List.flatten_cons, List.append_assoc] at heq
      exact absurd heq hu.append_ne_quote
    | cons u' units' =>
      obtain ⟨hu', hunits'⟩ := List.forall_mem_cons.mp h'
      rw [List.flatten_cons, List.append_assoc, List.flatten_cons, List.append_assoc] at heq
      obtain rfl := hu.eq_of_append hu' heq
      obtain ⟨rfl, rfl⟩ := ih hunits hunits' (List.append_cancel_left heq)
      exact ⟨rfl, rfl⟩

/-! ## Texts of strings -/

/-- The text of a string, with its quotes. -/
def Names (text : List Char) (name : String) : Prop :=
  ∃ u chars, SpelledBy u chars ∧ text = '"' :: u ++ ['"'] ∧ name = String.ofList chars

theorem names_stringText (name : String) : Names (stringText name).toList name :=
  ⟨_, _, spelledBy_escapedChar name.toList, by simp [stringText], by simp⟩

variable {text ext : List Char} {name : String}

theorem Names.string_append (h : Names text name) (ext : List Char) (offset : Nat) :
    ∃ offset', Reader.string ⟨text ++ ext, offset⟩ = .ok (name, ⟨ext, offset'⟩) := by
  obtain ⟨u, chars, hu, rfl, rfl⟩ := h
  exact stringBody_eq_ok_iff.mpr ⟨u, chars, hu, List.append_assoc u ['"'] ext, rfl⟩

theorem Names.unique (h : Names text name) {name' : String} (h' : Names text name') :
    name = name' := by
  obtain ⟨offset, hrun⟩ := h.string_append [] 0
  obtain ⟨offset', hrun'⟩ := h'.string_append [] 0
  rw [hrun] at hrun'
  cases hrun'
  rfl

/-- A string is read up to its own closing quote, whatever follows. -/
theorem IsString.names_of_string (hs : IsString text) {offset : Nat} {after : Cursor}
    (h : Reader.string ⟨text ++ ext, offset⟩ = .ok (name, after)) :
    Names text name ∧ after.rest = ext := by
  obtain @⟨units, hunits⟩ := hs
  obtain ⟨u, chars, hu, hw, rfl⟩ := stringBody_eq_ok_iff.mp ⟨after.offset, h⟩
  obtain ⟨units', hunits', rfl⟩ := hu.exists_units
  have hw : units.flatten ++ ['"'] ++ ext = units'.flatten ++ '"' :: after.rest := hw
  rw [List.append_assoc] at hw
  obtain ⟨rfl, rfl⟩ := eq_of_units_quote hunits hunits' hw
  exact ⟨⟨_, chars, hu, rfl, rfl⟩, rfl⟩

end Json

end SchemaGrammar
