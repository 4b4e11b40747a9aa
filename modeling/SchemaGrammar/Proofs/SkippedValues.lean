import SchemaGrammar.Proofs.SkippedScalars

/-!
# Skipping and reading

Skipping a value keeps the open brackets on a list and knows nothing of depth or of the size of
numbers; reading goes into brackets by recursion. Whatever can be read as a value, in any form, is
skipped as well, up to the same character. Hence two ways of reading one text that both succeed
agree on where the value ends.

What is skipped is a JSON value. A run with brackets open goes through the entries that are left of
each of them, from the inside out, and this takes the run apart into values.

## Main definitions

* `Json.Reader.Skips`: a value is skipped from one cursor to another, whatever brackets are open.
* `Json.Reader.BracketRest`: the entries of a bracket, gone through one by one.
* `Json.Reader.Closes`: the same for all brackets that are open.

## Main results

* `Json.Reader.skips_value`: a value that is read is skipped up to the same character.
* `Json.Reader.skips_of_skipValue`: what is skipped is a value.
* `Json.Reader.Skips.unique`: there is one place where a value ends.
-/

namespace SchemaGrammar

namespace Json

/-! ## Blanks -/

theorem isBlank_iff {c : Char} : Cursor.isBlank c = true ↔ c ∈ [' ', '\t', '\n', '\r'] := by
  simp [Cursor.isBlank, or_assoc, or_comm, or_left_comm]

theorem skipBlanks_blank_append {b : List Char} (hb : IsBlank b) (w : List Char) (offset : Nat) :
    Cursor.skipBlanks ⟨b ++ w, offset⟩ = Cursor.skipBlanks ⟨w, offset + b.length⟩ := by
  induction b generalizing offset with
  | nil => rfl
  | cons c b ih =>
    obtain ⟨hc, hb⟩ := List.forall_mem_cons.mp hb
    have hstep : Cursor.skipBlanks ⟨c :: b ++ w, offset⟩ = Cursor.skipBlanks ⟨b ++ w, offset + 1⟩ :=
      if_pos (isBlank_iff.mpr hc)
    rw [hstep, ih hb, List.length_cons, Nat.add_right_comm, Nat.add_assoc]

theorem skipBlanks_cons {c : Char} (hc : Cursor.isBlank c = false) (w : List Char) (offset : Nat) :
    Cursor.skipBlanks ⟨c :: w, offset⟩ = ⟨c :: w, offset⟩ :=
  if_neg (by simp [hc])

/-- Blanks are skipped up to a character that is not blank. -/
theorem exists_skipBlanks_eq (c : Cursor) :
    ∃ b w offset, IsBlank b ∧ c.rest = b ++ w ∧ c.skipBlanks = ⟨w, offset⟩ ∧
      ∀ char ∈ w.head?, Cursor.isBlank char = false := by
  obtain ⟨w, offset⟩ := c
  induction w generalizing offset with
  | nil => exact ⟨[], [], offset, isBlank_nil, rfl, rfl, nofun⟩
  | cons char w ih =>
    cases hchar : Cursor.isBlank char with
    | true =>
      obtain ⟨b, w', offset', hb, hrest, hskip, hhead⟩ := ih (offset + 1)
      have hstep : Cursor.skipBlanks ⟨char :: w, offset⟩ = Cursor.skipBlanks ⟨w, offset + 1⟩ :=
        if_pos hchar
      exact ⟨char :: b, w', offset', isBlank_cons (isBlank_iff.mp hchar) hb,
        congrArg (char :: ·) hrest, hstep.trans hskip, hhead⟩
    | false =>
      refine ⟨[], char :: w, offset, isBlank_nil, rfl, skipBlanks_cons hchar w offset, ?_⟩
      rintro _ ⟨⟩
      exact hchar

theorem exists_blank_skipBlanks (c : Cursor) : ∃ b, IsBlank b ∧ c.rest = b ++ c.skipBlanks.rest := by
  obtain ⟨b, w, offset, hb, hrest, hskip, -⟩ := exists_skipBlanks_eq c
  exact ⟨b, hb, by rw [hrest, hskip]⟩

theorem isBlank_of_skipBlanks {c : Cursor} (h : c.skipBlanks.rest = []) : IsBlank c.rest := by
  obtain ⟨b, hb, hrest⟩ := exists_blank_skipBlanks c
  rw [hrest, h, List.append_nil]
  exact hb

theorem skipBlanks_skipBlanks (c : Cursor) : c.skipBlanks.skipBlanks = c.skipBlanks := by
  obtain ⟨b, w, offset, -, -, hskip, hhead⟩ := exists_skipBlanks_eq c
  rw [hskip]
  cases w with
  | nil => rfl
  | cons char w => exact skipBlanks_cons (hhead char rfl) w offset

/-- The text comes next, after blanks. -/
def Cursor.At (c : Cursor) (w : List Char) : Prop := ∃ b, IsBlank b ∧ c.rest = b ++ w

theorem Cursor.at_rest (c : Cursor) : c.At c.rest := ⟨[], isBlank_nil, rfl⟩

theorem Cursor.At.blank {c : Cursor} {b w : List Char} (h : c.At (b ++ w)) (hb : IsBlank b) :
    c.At w := by
  obtain ⟨b', hb', hc⟩ := h
  exact ⟨b' ++ b, hb'.append hb, by rw [hc, List.append_assoc]⟩

namespace Reader

variable {α : Type}

theorem peekToken_of_at {c : Cursor} {char : Char} {w : List Char} (h : c.At (char :: w))
    (hchar : Cursor.isBlank char = false) :
    ∃ offset, peekToken c = .ok (some char, ⟨char :: w, offset⟩) := by
  obtain ⟨rest, offset⟩ := c
  obtain ⟨b, hb, rfl⟩ := h
  refine ⟨offset + b.length, ?_⟩
  unfold peekToken
  rw [skipBlanks_blank_append hb, skipBlanks_cons hchar]
  rfl

/-! ## One step -/

/-- The character that opens a bracket. -/
def Bracket.opening : Bracket → Char
  | .list => '['
  | .object => '\x7b'

section

variable {c between after : Cursor} {char : Char}

theorem rest_of_peekToken (h : peekToken c = .ok (some char, between)) :
    between = c.skipBlanks ∧ ∃ w, between.rest = char :: w := by
  obtain ⟨hhead, rfl⟩ := Prod.mk.inj (Except.ok.inj h)
  exact ⟨rfl, List.head?_eq_some_iff.mp hhead⟩

theorem skipRest_bracket {bracket : Bracket}
    (h : peekToken c = .ok (some bracket.opening, between)) (step : Char) (steps : Steps)
    (opened : List Bracket) :
    skipRest (step :: steps) opened false c = skipRest.enter steps bracket opened between.skip := by
  rw [skipRest, bind_of_ok h]
  cases bracket <;> rfl

theorem skipRest_scalar (h : peekToken c = .ok (some char, between)) (hlist : char ≠ '[')
    (hobject : char ≠ '\x7b') (step : Char) (steps : Steps) (opened : List Bracket) :
    skipRest (step :: steps) opened false c =
      (skipScalar char >>= fun _ => skipRest steps opened true) between := by
  rw [skipRest, bind_of_ok h]
  refine congrFun ?_ between
  generalize htoken : some char = token
  split
  · cases htoken
  · cases htoken
    simp [skipScalar]
  · cases htoken
    simp [skipScalar]
  · cases htoken
    simp [skipScalar]
  · cases htoken
    simp [skipScalar]
  · cases htoken
    simp [skipScalar]
  · exact absurd (Option.some.inj htoken) hlist
  · exact absurd (Option.some.inj htoken) hobject
  · next _ next hn ht hf hm hq _ _ =>
    cases htoken
    have hskip : skipScalar char =
        if char.isDigit = true then skipUnsigned else failAhead .expectedValue := by
      simp_all [skipScalar]
    rw [hskip]
    split <;> rfl

/-- Blanks before a token do not matter. -/
theorem peekToken_bind_skipBlanks (f : Option Char → Reader α) (c : Cursor) :
    (peekToken >>= f) c.skipBlanks = (peekToken >>= f) c := by
  show f c.skipBlanks.skipBlanks.rest.head? c.skipBlanks.skipBlanks = _
  rw [skipBlanks_skipBlanks]
  rfl

theorem length_skipBlanks_le (c : Cursor) : c.skipBlanks.rest.length ≤ c.rest.length := by
  obtain ⟨b, -, hrest⟩ := exists_blank_skipBlanks c
  rw [hrest, List.length_append]
  omega

end

/-! ## Skipping a value -/

/-- A value is skipped from `c` to `after`, whatever brackets are open. -/
structure Skips (c after : Cursor) : Prop where
  run : ∀ (steps : Steps) (opened : List Bracket), c.rest.length < steps.length →
    ∃ steps' : Steps, after.rest.length < steps'.length ∧
      skipRest steps opened false c = skipRest steps' opened true after
  text : ∃ b v, IsBlank b ∧ IsValue v ∧ c.rest = b ++ v ++ after.rest

section

variable {c between after after' : Cursor} {char : Char}

theorem Skips.skipValue (h : Skips c after) : skipValue c = .ok ((), after) := by
  obtain ⟨steps, hsteps, hskip⟩ := h.run (' ' :: ' ' :: c.rest) [] (by simp)
  obtain ⟨step, steps, rfl⟩ := List.exists_cons_of_length_pos (Nat.zero_lt_of_lt hsteps)
  have hend : skipRest (step :: steps) [] true after = .ok ((), after) := by
    rw [skipRest]
    rfl
  exact hskip.trans hend

/-- **There is one place where a value ends.** -/
theorem Skips.unique (h : Skips c after) (h' : Skips c after') : after = after' := by
  have heq := h.skipValue.symm.trans h'.skipValue
  exact congrArg Prod.snd (Except.ok.inj heq)

theorem Skips.length_lt (h : Skips c after) : after.rest.length < c.rest.length := by
  obtain ⟨b, v, -, hv, hrest⟩ := h.text
  have hlength := List.length_pos_iff.mpr hv.ne_nil
  rw [hrest, List.length_append, List.length_append]
  omega

theorem Skips.of_skipBlanks (h : Skips c.skipBlanks after) : Skips c after where
  run steps opened hsteps := by
    obtain ⟨step, steps, rfl⟩ := List.exists_cons_of_length_pos (Nat.zero_lt_of_lt hsteps)
    obtain ⟨steps', hsteps', hskip⟩ := h.run (step :: steps) opened
      (Nat.lt_of_le_of_lt (length_skipBlanks_le c) hsteps)
    refine ⟨steps', hsteps', ?_⟩
    rw [← hskip, skipRest, peekToken_bind_skipBlanks]
  text := by
    obtain ⟨b', hb', hc⟩ := exists_blank_skipBlanks c
    obtain ⟨b, v, hb, hv, hrest⟩ := h.text
    exact ⟨b' ++ b, v, hb'.append hb, hv, by rw [hc, hrest]; simp⟩

theorem skips_scalar (hpeek : peekToken c = .ok (some char, between))
    (h : skipScalar char between = .ok ((), after)) : Skips c after := by
  obtain ⟨rfl, w, hrest⟩ := rest_of_peekToken hpeek
  obtain ⟨v, hv, hafter⟩ := exists_isValue_of_skipScalar hrest h
  refine ⟨fun steps opened hsteps => ?_, ?_⟩
  · obtain ⟨step, steps, rfl⟩ := List.exists_cons_of_length_pos (Nat.zero_lt_of_lt hsteps)
    refine ⟨steps, ?_, ?_⟩
    · have hblanks := length_skipBlanks_le c
      have hlength := List.length_pos_iff.mpr hv.ne_nil
      rw [hafter, List.length_append] at hblanks
      rw [List.length_cons] at hsteps
      omega
    · have hlist : char ≠ '[' := by
        rintro rfl
        cases h
      have hobject : char ≠ '\x7b' := by
        rintro rfl
        cases h
      rw [skipRest_scalar hpeek hlist hobject, bind_of_ok h]
  · obtain ⟨b, hb, hc⟩ := exists_blank_skipBlanks c
    exact ⟨b, v, hb, hv, by rw [hc, hafter, List.append_assoc]⟩

/-! ## Entries of a bracket -/

theorem length_skip_lt (hpeek : peekToken c = .ok (some char, between)) :
    between.skip.rest.length < c.rest.length := by
  obtain ⟨rfl, w, hrest⟩ := rest_of_peekToken hpeek
  have hblanks := length_skipBlanks_le c
  simp only [Cursor.skip, hrest, List.length_cons] at hblanks ⊢
  omega

/-- What is skipped of a member before its value. -/
theorem exists_key_of_skipKey (h : skipKey c = .ok ((), after)) :
    ∃ b k b', IsBlank b ∧ IsString k ∧ IsBlank b' ∧
      c.rest = b ++ k ++ b' ++ ':' :: after.rest := by
  obtain ⟨token, quote, hquote, h⟩ := bind_eq_ok.mp h
  dsimp only at h
  split at h
  · obtain ⟨rfl, w, hrest⟩ := rest_of_peekToken hquote
    obtain ⟨_, between, hstring, h⟩ := bind_eq_ok.mp h
    obtain ⟨k, hk, hkey⟩ := exists_isString_of_skipString hrest hstring
    obtain ⟨token, colon, hcolon, h⟩ := bind_eq_ok.mp h
    split at h
    · obtain ⟨rfl, w', hrest'⟩ := rest_of_peekToken hcolon
      cases h
      obtain ⟨b, hb, hc⟩ := exists_blank_skipBlanks c
      obtain ⟨b', hb', hbetween⟩ := exists_blank_skipBlanks between
      refine ⟨b, k, b', hb, hk, hb', ?_⟩
      rw [hc, hkey, hbetween, hrest']
      simp [Cursor.skip, hrest']
    · cases h
    · cases h
  · cases h
  · cases h

theorem length_skipLead_le {bracket : Bracket} (h : skipLead bracket c = .ok ((), after)) :
    after.rest.length ≤ c.rest.length := by
  cases bracket with
  | list =>
    cases h
    exact le_rfl
  | object =>
    obtain ⟨b, k, b', -, -, -, hrest⟩ := exists_key_of_skipKey h
    rw [hrest]
    simp only [List.length_append, List.length_cons]
    omega

end

/-- The entries of a bracket, gone through one by one, and the character that closes it. The flag
says that no entry came before. -/
inductive BracketRest (bracket : Bracket) : Bool → Cursor → Cursor → Prop
  | close {first : Bool} {c b : Cursor} (h : peekToken c = .ok (some bracket.closing, b)) :
      BracketRest bracket first c b.skip
  | first {c b lead value after : Cursor} {char : Char} (h : peekToken c = .ok (some char, b))
      (hchar : char ≠ bracket.closing) (hlead : skipLead bracket b = .ok ((), lead))
      (hvalue : Skips lead value) (hrest : BracketRest bracket false value after) :
      BracketRest bracket true c after
  | next {c b lead value after : Cursor} (h : peekToken c = .ok (some ',', b))
      (hlead : skipLead bracket b.skip = .ok ((), lead)) (hvalue : Skips lead value)
      (hrest : BracketRest bracket false value after) : BracketRest bracket false c after

section

variable {c between after : Cursor} {char : Char} {bracket : Bracket} {first : Bool}

/-! ### What the skipper does -/

theorem enter_of_closing (h : peekToken c = .ok (some bracket.closing, between)) (steps : Steps)
    (opened : List Bracket) :
    skipRest.enter steps bracket opened c = skipRest steps opened true between.skip := by
  rw [skipRest.enter, bind_of_ok h]
  simp only [if_pos]
  rfl

theorem enter_of_entry (h : peekToken c = .ok (some char, between))
    (hchar : char ≠ bracket.closing) (steps : Steps) (opened : List Bracket) :
    skipRest.enter steps bracket opened c =
      (skipLead bracket >>= fun _ => skipRest steps (bracket :: opened) false) between := by
  rw [skipRest.enter, bind_of_ok h]
  simp only [if_neg hchar]

theorem skipRest_of_closing (h : peekToken c = .ok (some bracket.closing, between)) (step : Char)
    (steps : Steps) (opened : List Bracket) :
    skipRest (step :: steps) (bracket :: opened) true c = skipRest steps opened true between.skip := by
  have hcomma : bracket.closing ≠ ',' := by cases bracket <;> decide
  rw [skipRest, bind_of_ok h]
  simp only [if_neg hcomma, if_pos]
  rfl

theorem skipRest_of_comma (h : peekToken c = .ok (some ',', between)) (step : Char)
    (steps : Steps) (opened : List Bracket) :
    skipRest (step :: steps) (bracket :: opened) true c =
      (skipLead bracket >>= fun _ => skipRest steps (bracket :: opened) false) between.skip := by
  rw [skipRest, bind_of_ok h]
  simp only [if_pos]
  rfl

/-- The skipper goes through entries in the same way. -/
theorem BracketRest.run (h : BracketRest bracket first c after) (steps : Steps)
    (opened : List Bracket) (hsteps : c.rest.length < steps.length) :
    ∃ steps' : Steps, after.rest.length < steps'.length ∧
      (if first then skipRest.enter steps bracket opened
        else skipRest steps (bracket :: opened) true) c = skipRest steps' opened true after := by
  induction h generalizing steps opened with
  | @close first c b h =>
    have hlength := length_skip_lt h
    cases first with
    | true => exact ⟨steps, by omega, enter_of_closing h steps opened⟩
    | false =>
      obtain ⟨step, steps, rfl⟩ := List.exists_cons_of_length_pos (Nat.zero_lt_of_lt hsteps)
      rw [List.length_cons] at hsteps
      exact ⟨steps, by omega, skipRest_of_closing h step steps opened⟩
  | @first c b lead value after char h hchar hlead hvalue _ ih =>
    have hb := length_skipLead_le hlead
    have hblanks := length_skipBlanks_le c
    obtain ⟨rfl, -⟩ := rest_of_peekToken h
    obtain ⟨steps', hsteps', hskip⟩ := hvalue.run steps (bracket :: opened) (by omega)
    obtain ⟨steps'', hsteps'', hrest⟩ := ih steps' opened hsteps'
    refine ⟨steps'', hsteps'', ?_⟩
    rw [if_pos rfl, enter_of_entry h hchar, bind_of_ok hlead, hskip]
    exact hrest
  | @next c b lead value after h hlead hvalue _ ih =>
    have hb := length_skipLead_le hlead
    have hlength := length_skip_lt h
    obtain ⟨step, steps, rfl⟩ := List.exists_cons_of_length_pos (Nat.zero_lt_of_lt hsteps)
    rw [List.length_cons] at hsteps
    obtain ⟨steps', hsteps', hskip⟩ := hvalue.run steps (bracket :: opened) (by omega)
    obtain ⟨steps'', hsteps'', hrest⟩ := ih steps' opened hsteps'
    refine ⟨steps'', hsteps'', ?_⟩
    rw [if_neg Bool.false_ne_true, skipRest_of_comma h, bind_of_ok hlead, hskip]
    exact hrest

/-! ### What text it is -/

/-- An entry of a bracket. -/
def Bracket.Entry : Bracket → List Char → Prop
  | .list => IsValue
  | .object => IsMember

theorem exists_entry_of_skipLead {lead value : Cursor} (hlead : skipLead bracket c = .ok ((), lead))
    (hvalue : Skips lead value) :
    ∃ b e, IsBlank b ∧ bracket.Entry e ∧ c.rest = b ++ e ++ value.rest := by
  obtain ⟨b, v, hb, hv, hrest⟩ := hvalue.text
  cases bracket with
  | list =>
    cases hlead
    exact ⟨b, v, hb, hv, hrest⟩
  | object =>
    obtain ⟨b₀, k, b₁, hb₀, hk, hb₁, hkey⟩ := exists_key_of_skipKey hlead
    exact ⟨b₀, _, hb₀, .intro hk hb₁ hb hv, by rw [hkey, hrest]; simp⟩

/-- What is left of a bracket up to where it closes: nothing, entries, or a comma and entries. -/
inductive Bracket.EntriesText (bracket : Bracket) : Bool → List Char → Prop
  | blank {first : Bool} {b : List Char} (hb : IsBlank b) : EntriesText bracket first b
  | first {w : List Char} (hw : Separated bracket.Entry w) : EntriesText bracket true w
  | next {b w : List Char} (hb : IsBlank b) (hw : Separated bracket.Entry w) :
      EntriesText bracket false (b ++ ',' :: w)

theorem Bracket.EntriesText.separated {b e w : List Char} (h : bracket.EntriesText false w)
    (hb : IsBlank b) (he : bracket.Entry e) : Separated bracket.Entry (b ++ e ++ w) := by
  cases h with
  | blank hw => exact .one hb he hw
  | next hb' hw => simpa using Separated.more hb he hb' hw

theorem BracketRest.exists_entriesText (h : BracketRest bracket first c after) :
    ∃ w, bracket.EntriesText first w ∧ c.rest = w ++ bracket.closing :: after.rest := by
  induction h with
  | @close first c b h =>
    obtain ⟨rfl, w, hrest⟩ := rest_of_peekToken h
    obtain ⟨b, hb, hc⟩ := exists_blank_skipBlanks c
    refine ⟨b, .blank hb, ?_⟩
    rw [hc, hrest]
    simp [Cursor.skip, hrest]
  | @first c b lead value after char h _ hlead hvalue _ ih =>
    obtain ⟨rfl, -⟩ := rest_of_peekToken h
    obtain ⟨b₀, hb₀, hc⟩ := exists_blank_skipBlanks c
    obtain ⟨b, e, hb, he, hentry⟩ := exists_entry_of_skipLead hlead hvalue
    obtain ⟨w, hw, hrest⟩ := ih
    refine ⟨_, .first (hw.separated (hb₀.append hb) he), ?_⟩
    rw [hc, hentry, hrest]
    simp
  | @next c b lead value after h hlead hvalue _ ih =>
    obtain ⟨rfl, w', hcomma⟩ := rest_of_peekToken h
    obtain ⟨b₀, hb₀, hc⟩ := exists_blank_skipBlanks c
    obtain ⟨b, e, hb, he, hentry⟩ := exists_entry_of_skipLead hlead hvalue
    obtain ⟨w, hw, hrest⟩ := ih
    refine ⟨_, .next hb₀ (hw.separated hb he), ?_⟩
    have hskip : c.skipBlanks.rest = ',' :: c.skipBlanks.skip.rest := by simp [Cursor.skip, hcomma]
    rw [hc, hskip, hentry, hrest]
    simp

theorem Bracket.EntriesText.isValue {w : List Char} (h : bracket.EntriesText true w) :
    IsValue (bracket.opening :: w ++ [bracket.closing]) := by
  cases bracket with
  | list =>
    cases h with
    | blank hb => exact .emptyArray hb
    | first hw => exact .array hw
  | object =>
    cases h with
    | blank hb => exact .emptyObject hb
    | first hw => exact .object hw

theorem skips_bracket (bracket : Bracket)
    (hpeek : peekToken c = .ok (some bracket.opening, between))
    (h : BracketRest bracket true between.skip after) : Skips c after where
  run steps opened hsteps := by
    obtain ⟨step, steps, rfl⟩ := List.exists_cons_of_length_pos (Nat.zero_lt_of_lt hsteps)
    have hlength := length_skip_lt hpeek
    rw [List.length_cons] at hsteps
    obtain ⟨steps', hsteps', hskip⟩ := h.run steps opened (by omega)
    refine ⟨steps', hsteps', ?_⟩
    rw [skipRest_bracket hpeek, ← hskip]
    rfl
  text := by
    obtain ⟨rfl, w', hrest⟩ := rest_of_peekToken hpeek
    obtain ⟨b, hb, hc⟩ := exists_blank_skipBlanks c
    obtain ⟨w, hw, hentries⟩ := h.exists_entriesText
    refine ⟨b, _, hb, hw.isValue, ?_⟩
    have hskip : c.skipBlanks.rest = bracket.opening :: c.skipBlanks.skip.rest := by
      simp [Cursor.skip, hrest]
    rw [hc, hskip, hentries]
    simp

end

/-! ## The loops over entries -/

section

variable {c between after : Cursor} {first : Bool}

theorem peekToken_of_closeList (h : closeList c = .ok ((), after)) :
    ∃ b, peekToken c = .ok (some ']', b) ∧ after = b.skip := by
  obtain ⟨token, b, hpeek, h⟩ := bind_eq_ok.mp h
  split at h
  · cases h
  · cases h
    exact ⟨b, hpeek, rfl⟩
  · obtain ⟨_, _, ⟨⟩, h⟩ := bind_eq_ok.mp h
    obtain ⟨token, _, -, h⟩ := bind_eq_ok.mp h
    split at h <;> cases h
  · cases h

theorem peekToken_of_closeObject (h : closeObject c = .ok ((), after)) :
    ∃ b, peekToken c = .ok (some '\x7d', b) ∧ after = b.skip := by
  obtain ⟨token, b, hpeek, h⟩ := bind_eq_ok.mp h
  split at h
  · cases h
  · cases h
    exact ⟨b, hpeek, rfl⟩
  · cases h
  · cases h

/-- Whether another item follows: at the beginning, or after a comma. -/
theorem hasNextItem_cases {more : Bool} (h : hasNextItem first c = .ok (more, between)) :
    (more = false ∧ between = c.skipBlanks) ∨ more = true ∧
      ((first = true ∧ ∃ char, char ≠ ']' ∧ peekToken c = .ok (some char, between)) ∨
        first = false ∧ ∃ b char, peekToken c = .ok (some ',', b) ∧
          peekToken b.skip = .ok (some char, between)) := by
  obtain ⟨token, b, hpeek, h⟩ := bind_eq_ok.mp h
  split at h
  · cases h
  · cases h
    exact .inl ⟨rfl, (rest_of_peekToken hpeek).1⟩
  · next char hchar =>
    split at h
    · next hfirst =>
      cases h
      exact .inr ⟨rfl, .inl ⟨hfirst, char, hchar, hpeek⟩⟩
    split at h
    · next hfirst hcomma =>
      obtain ⟨_, _, ⟨⟩, h⟩ := bind_eq_ok.mp h
      obtain ⟨token, _, hnext, h⟩ := bind_eq_ok.mp h
      split at h
      · cases h
      · cases h
      · cases h
        exact .inr ⟨rfl, .inr ⟨by simpa using hfirst, b, _, hcomma ▸ hpeek, hnext⟩⟩
    · cases h

/-- An item that can be skipped is one more entry. -/
theorem bracketRest_item {value : Cursor} (h : hasNextItem first c = .ok (true, between))
    (hvalue : Skips between value) (hrest : BracketRest .list false value after) :
    BracketRest .list first c after := by
  obtain ⟨⟨⟩, -⟩ | ⟨-, h⟩ := hasNextItem_cases h
  rcases h with ⟨rfl, char, hchar, hpeek⟩ | ⟨rfl, b, char, hcomma, hpeek⟩
  · exact .first hpeek hchar rfl hvalue hrest
  · obtain ⟨rfl, -⟩ := rest_of_peekToken hpeek
    exact .next hcomma rfl hvalue.of_skipBlanks hrest

theorem bracketRest_closeList (h : closeList c = .ok ((), after)) :
    BracketRest .list first c after := by
  obtain ⟨b, hpeek, rfl⟩ := peekToken_of_closeList h
  exact .close hpeek

theorem bracketRest_noItem (h : hasNextItem first c = .ok (false, between))
    (hclose : closeList between = .ok ((), after)) : BracketRest .list first c after := by
  obtain ⟨-, rfl⟩ | ⟨⟨⟩, -⟩ := hasNextItem_cases h
  rw [closeList, peekToken_bind_skipBlanks] at hclose
  exact bracketRest_closeList hclose

/-- What one round of the loop over items can do. -/
theorem elements_cases {read : Reader α} {step : Char} {steps : Steps} {index : Nat}
    {done items : List α}
    (h : elements read (step :: steps) index done c = .ok (items, after)) :
    (hasNextItem (index == 0) c = .ok (false, after) ∧ items = done.reverse) ∨
      ∃ b item value, hasNextItem (index == 0) c = .ok (true, b) ∧ read b = .ok (item, value) ∧
        elements read steps (index + 1) (item :: done) value = .ok (items, after) := by
  obtain ⟨more, b, hnext, h⟩ := bind_eq_ok.mp h
  cases more with
  | false =>
    cases h
    exact .inl ⟨hnext, rfl⟩
  | true =>
    obtain ⟨item, value, hitem, h⟩ := bind_eq_ok.mp h
    exact .inr ⟨b, item, value, hnext, within_eq_ok.mp hitem, h⟩

theorem bracketRest_elements {read : Reader α}
    (hread : ∀ c a after, read c = .ok (a, after) → Skips c after) {steps : Steps} {index : Nat}
    {done items : List α} (h : elements read steps index done c = .ok (items, between))
    (hclose : closeList between = .ok ((), after)) :
    BracketRest .list (index == 0) c after := by
  induction steps generalizing index done c with
  | nil => cases h
  | cons _ steps ih =>
    rcases elements_cases h with ⟨hnext, -⟩ | ⟨b, item, value, hnext, hitem, h⟩
    · exact bracketRest_noItem hnext hclose
    · exact bracketRest_item hnext (hread _ _ _ hitem) (ih h)

end

section

variable {c between after : Cursor} {first : Bool}

theorem skipKey_of_string {name : String} {b : Cursor}
    (hpeek : peekToken c = .ok (some '"', between)) (hname : string between = .ok (name, b))
    (hcolon : colon b = .ok ((), after)) : skipKey c = .ok ((), after) := by
  rw [skipKey, bind_of_ok hpeek]
  show (skipString >>= _) between = _
  rw [bind_of_ok (skipString_of_string hname)]
  obtain ⟨token, _, hpeek', h⟩ := bind_eq_ok.mp hcolon
  refine (bind_of_ok hpeek').trans ?_
  split at h
  · cases h
  · exact h
  · cases h

/-- Whether another member follows: its name is read at the beginning, or after a comma. -/
theorem nextKey_cases {key : Option String} (h : nextKey first c = .ok (key, between)) :
    (key = none ∧ between = c.skipBlanks) ∨
      ∃ name q, key = some name ∧ string q = .ok (name, between) ∧
        (first = true ∧ peekToken c = .ok (some '"', q) ∨
          first = false ∧ ∃ b, peekToken c = .ok (some ',', b) ∧
            peekToken b.skip = .ok (some '"', q)) := by
  obtain ⟨token, q, hpeek, h⟩ := bind_eq_ok.mp (within_eq_ok.mp h)
  split at h
  · cases h
  · cases h
    exact .inl ⟨rfl, (rest_of_peekToken hpeek).1⟩
  · split at h
    · next hfirst =>
      split at h
      · next hquote =>
        obtain ⟨name, _, hname, ⟨⟩⟩ := bind_eq_ok.mp h
        exact .inr ⟨name, q, rfl, hname, .inl ⟨hfirst, hquote ▸ hpeek⟩⟩
      · cases h
    split at h
    · next hfirst hcomma =>
      obtain ⟨_, _, ⟨⟩, h⟩ := bind_eq_ok.mp h
      obtain ⟨token, q', hnext, h⟩ := bind_eq_ok.mp h
      split at h
      · cases h
      · obtain ⟨name, _, hname, ⟨⟩⟩ := bind_eq_ok.mp h
        exact .inr ⟨name, q', rfl, hname,
          .inr ⟨by simpa using hfirst, q, hcomma ▸ hpeek, hnext⟩⟩
      · cases h
      · cases h
    · cases h

/-- A member whose value can be skipped is one more entry. -/
theorem bracketRest_member {name : String} {b value : Cursor}
    (h : nextKey first c = .ok (some name, b)) (hcolon : colon b = .ok ((), between))
    (hvalue : Skips between value) (hrest : BracketRest .object false value after) :
    BracketRest .object first c after := by
  obtain ⟨⟨⟩, -⟩ | ⟨_, q, ⟨⟩, hname, ⟨rfl, hquote⟩ | ⟨rfl, b, hcomma, hquote⟩⟩ := nextKey_cases h
  · obtain ⟨rfl, -⟩ := rest_of_peekToken hquote
    have hagain : peekToken c.skipBlanks = peekToken c := by
      unfold peekToken
      rw [skipBlanks_skipBlanks]
    exact .first hquote (by decide) (skipKey_of_string (hagain.trans hquote) hname hcolon) hvalue
      hrest
  · exact .next hcomma (skipKey_of_string hquote hname hcolon) hvalue hrest

theorem bracketRest_closeObject (h : nextKey first c = .ok (none, between))
    (hclose : closeObject between = .ok ((), after)) : BracketRest .object first c after := by
  obtain ⟨-, rfl⟩ | ⟨_, _, ⟨⟩, -⟩ := nextKey_cases h
  rw [closeObject, peekToken_bind_skipBlanks] at hclose
  obtain ⟨b, hpeek, rfl⟩ := peekToken_of_closeObject hclose
  exact .close hpeek

/-- What one round of the loop over members can do. -/
theorem members_cases {read : Reader α} {step : Char} {steps : Steps}
    {done entries : List (String × α)}
    (h : members read (step :: steps) first done c = .ok (entries, after)) :
    (nextKey first c = .ok (none, after) ∧ entries = done.reverse) ∨
      ∃ name b lead entry value, nextKey first c = .ok (some name, b) ∧
        colon b = .ok ((), lead) ∧ read lead = .ok (entry, value) ∧
        members read steps false ((name, entry) :: done) value = .ok (entries, after) := by
  obtain ⟨name, b, hnext, h⟩ := bind_eq_ok.mp h
  cases name with
  | none =>
    cases h
    exact .inl ⟨hnext, rfl⟩
  | some name =>
    obtain ⟨_, lead, hcolon, h⟩ := bind_eq_ok.mp h
    obtain ⟨entry, value, hentry, h⟩ := bind_eq_ok.mp h
    exact .inr ⟨name, b, lead, entry, value, hnext, hcolon, within_eq_ok.mp hentry, h⟩

theorem bracketRest_members {read : Reader α}
    (hread : ∀ c a after, read c = .ok (a, after) → Skips c after) {steps : Steps}
    {done entries : List (String × α)}
    (h : members read steps first done c = .ok (entries, between))
    (hclose : closeObject between = .ok ((), after)) : BracketRest .object first c after := by
  induction steps generalizing first done c with
  | nil => cases h
  | cons _ steps ih =>
    rcases members_cases h with ⟨hnext, -⟩ | ⟨name, b, lead, entry, value, hnext, hcolon, he, h⟩
    · exact bracketRest_closeObject hnext hclose
    · exact bracketRest_member hnext hcolon (hread _ _ _ he) (ih h)

end

/-! ## Values -/

section

variable {c between after : Cursor} {char : Char}

theorem skips_string {text : String} (hpeek : peekToken c = .ok (some '"', between))
    (h : string between = .ok (text, after)) : Skips c after :=
  skips_scalar hpeek (skipString_of_string h)

theorem skips_number {n : Number} (hpeek : peekToken c = .ok (some char, between))
    (hchar : char = '-' ∨ char.isDigit = true) (h : number between = .ok (n, after)) :
    Skips c after := by
  refine skips_scalar hpeek ?_
  obtain ⟨rfl, w, hrest⟩ := rest_of_peekToken hpeek
  obtain ⟨_, _, ⟨⟩, h⟩ := bind_eq_ok.mp h
  rw [hrest, List.head?_cons] at h
  rcases hchar with rfl | hdigit
  · obtain ⟨_, _, ⟨⟩, h⟩ := bind_eq_ok.mp h
    exact bind_eq_ok.mpr ⟨(), _, rfl, (scans_unsignedNumber true).skips _ _ _ h⟩
  · have hne : ∀ {x : Char}, x.isDigit = false → char ≠ x := by
      rintro x hx rfl
      rw [hx] at hdigit
      cases hdigit
    rw [if_neg (by simpa using hne (by decide))] at h
    have hskip : skipScalar char = skipUnsigned := by
      rw [skipScalar, if_neg (hne (by decide)), if_neg (hne (by decide)), if_neg (hne (by decide)),
        if_neg (hne (by decide)), if_neg (hne (by decide)), if_pos hdigit]
    rw [hskip]
    exact (scans_unsignedNumber false).skips _ _ _ h

theorem list_eq_ok {read : Reader α} {items : List α}
    (h : list read c = .ok (items, after)) :
    ∃ between, elements read (' ' :: ' ' :: c.skip.rest) 0 [] c.skip = .ok (items, between) ∧
      closeList between = .ok ((), after) := by
  obtain ⟨_, _, ⟨⟩, h⟩ := bind_eq_ok.mp h
  obtain ⟨_, _, ⟨⟩, h⟩ := bind_eq_ok.mp h
  obtain ⟨_, between, helements, h⟩ := bind_eq_ok.mp h
  obtain ⟨_, _, hclose, h⟩ := bind_eq_ok.mp h
  cases h
  exact ⟨between, helements, hclose⟩

theorem skips_list {read : Reader α}
    (hread : ∀ c a after, read c = .ok (a, after) → Skips c after) {items : List α}
    (hpeek : peekToken c = .ok (some '[', between)) (h : list read between = .ok (items, after)) :
    Skips c after := by
  obtain ⟨_, helements, hclose⟩ := list_eq_ok h
  exact skips_bracket .list hpeek (bracketRest_elements hread helements hclose)

theorem object_eq_ok {read : Reader α} {entries : List (String × α)}
    (h : object read c = .ok (entries, after)) :
    ∃ between, members read (' ' :: ' ' :: c.skip.rest) true [] c.skip = .ok (entries, between) ∧
      closeObject between = .ok ((), after) := by
  obtain ⟨_, _, ⟨⟩, h⟩ := bind_eq_ok.mp h
  obtain ⟨_, _, ⟨⟩, h⟩ := bind_eq_ok.mp h
  obtain ⟨_, between, hmembers, h⟩ := bind_eq_ok.mp h
  obtain ⟨_, _, hclose, h⟩ := bind_eq_ok.mp h
  cases h
  exact ⟨between, hmembers, hclose⟩

theorem skips_object {read : Reader α}
    (hread : ∀ c a after, read c = .ok (a, after) → Skips c after) {entries : List (String × α)}
    (hpeek : peekToken c = .ok (some '\x7b', between))
    (h : object read between = .ok (entries, after)) : Skips c after := by
  obtain ⟨_, hmembers, hclose⟩ := object_eq_ok h
  exact skips_bracket .object hpeek (bracketRest_members hread hmembers hclose)

/-- **A value that is read is skipped up to the same character.** -/
theorem skips_value {depth : Nat} {v : Value} (h : value depth c = .ok (v, after)) :
    Skips c after := by
  induction depth using Nat.strongRecOn generalizing c v after with
  | ind depth ih =>
    unfold value at h
    obtain ⟨token, b, hpeek, h⟩ := bind_eq_ok.mp h
    have hword : ∀ {expected : List Char} {v' : Value},
        (eat >>= fun _ => letters expected >>= fun _ => Pure.pure v') b = .ok (v, after) →
          (eat >>= fun _ => letters expected) b = .ok ((), after) := by
      intro expected v' h
      obtain ⟨_, _, ⟨⟩, h⟩ := bind_eq_ok.mp h
      obtain ⟨_, _, hletters, h⟩ := bind_eq_ok.mp h
      cases h
      exact bind_eq_ok.mpr ⟨(), _, rfl, hletters⟩
    split at h
    · cases h
    · exact skips_scalar hpeek (hword h)
    · exact skips_scalar hpeek (hword h)
    · exact skips_scalar hpeek (hword h)
    · obtain ⟨_, _, hstring, h⟩ := bind_eq_ok.mp h
      cases h
      exact skips_string hpeek hstring
    · cases depth with
      | zero => cases h
      | succ depth =>
        obtain ⟨_, _, hlist, h⟩ := bind_eq_ok.mp h
        cases h
        exact skips_list (fun c v after => ih depth depth.lt_succ_self) hpeek hlist
    · cases depth with
      | zero => cases h
      | succ depth =>
        obtain ⟨_, _, hobject, h⟩ := bind_eq_ok.mp h
        cases h
        exact skips_object (fun c v after => ih depth depth.lt_succ_self) hpeek hobject
    · split at h
      · next hchar =>
        obtain ⟨_, _, hnumber, h⟩ := bind_eq_ok.mp h
        cases h
        exact skips_number hpeek (by simpa using hchar) hnumber
      · cases h

end

/-! ## What is skipped -/

section

variable {c after : Cursor}

/-- The entries that are left of all open brackets are gone through, the innermost first. -/
inductive Closes : List Bracket → Cursor → Cursor → Prop
  | nil {c : Cursor} : Closes [] c c
  | cons {bracket : Bracket} {outer : List Bracket} {c between after : Cursor}
      (h : BracketRest bracket false c between) (ho : Closes outer between after) :
      Closes (bracket :: outer) c after

/-- A step in which a value begins. -/
theorem exists_token_of_skipRest {step : Char} {steps : Steps} {opened : List Bracket}
    (h : skipRest (step :: steps) opened false c = .ok ((), after)) :
    ∃ char b, peekToken c = .ok (some char, b) ∧
      ((∃ between, skipScalar char b = .ok ((), between) ∧
          skipRest steps opened true between = .ok ((), after)) ∨
        ∃ bracket : Bracket, char = bracket.opening ∧
          skipRest.enter steps bracket opened b.skip = .ok ((), after)) := by
  have hstep := h
  rw [skipRest] at hstep
  obtain ⟨token, b, hpeek, hstep⟩ := bind_eq_ok.mp hstep
  cases token with
  | none => cases hstep
  | some char =>
    refine ⟨char, b, hpeek, ?_⟩
    by_cases hlist : char = '['
    · subst hlist
      exact .inr ⟨.list, rfl, (skipRest_bracket hpeek step steps opened).symm.trans h⟩
    by_cases hobject : char = '\x7b'
    · subst hobject
      exact .inr ⟨.object, rfl, (skipRest_bracket hpeek step steps opened).symm.trans h⟩
    · rw [skipRest_scalar hpeek hlist hobject] at h
      obtain ⟨_, between, hscalar, h⟩ := bind_eq_ok.mp h
      exact .inl ⟨between, hscalar, h⟩

/-- A step in which a bracket has just been opened. -/
theorem enter_cases {steps : Steps} {bracket : Bracket} {opened : List Bracket}
    (h : skipRest.enter steps bracket opened c = .ok ((), after)) :
    (∃ b, peekToken c = .ok (some bracket.closing, b) ∧
        skipRest steps opened true b.skip = .ok ((), after)) ∨
      ∃ char b lead, peekToken c = .ok (some char, b) ∧ char ≠ bracket.closing ∧
        skipLead bracket b = .ok ((), lead) ∧
        skipRest steps (bracket :: opened) false lead = .ok ((), after) := by
  rw [skipRest.enter] at h
  obtain ⟨token, b, hpeek, h⟩ := bind_eq_ok.mp h
  cases token with
  | none => cases h
  | some char =>
    dsimp only at h
    split at h
    · next hclosing => exact .inl ⟨b, hclosing ▸ hpeek, h⟩
    · next hclosing =>
      obtain ⟨_, lead, hlead, h⟩ := bind_eq_ok.mp h
      exact .inr ⟨char, b, lead, hpeek, hclosing, hlead, h⟩

/-- A step in which a value inside a bracket has just ended. -/
theorem skipRest_true_cases {step : Char} {steps : Steps} {bracket : Bracket}
    {opened : List Bracket}
    (h : skipRest (step :: steps) (bracket :: opened) true c = .ok ((), after)) :
    (∃ b, peekToken c = .ok (some bracket.closing, b) ∧
        skipRest steps opened true b.skip = .ok ((), after)) ∨
      ∃ b lead, peekToken c = .ok (some ',', b) ∧ skipLead bracket b.skip = .ok ((), lead) ∧
        skipRest steps (bracket :: opened) false lead = .ok ((), after) := by
  rw [skipRest] at h
  obtain ⟨token, b, hpeek, h⟩ := bind_eq_ok.mp h
  cases token with
  | none => cases h
  | some char =>
    dsimp only at h
    split at h
    · next hcomma =>
      obtain ⟨_, _, ⟨⟩, h⟩ := bind_eq_ok.mp h
      obtain ⟨_, lead, hlead, h⟩ := bind_eq_ok.mp h
      exact .inr ⟨b, lead, hcomma ▸ hpeek, hlead, h⟩
    split at h
    · next hclosing => exact .inl ⟨b, hclosing ▸ hpeek, h⟩
    · cases h

/-- A run of the skipper, taken apart into the value that comes next and what is left of the open
brackets. -/
theorem closes_of_skipRest {steps : Steps} {opened : List Bracket} {complete : Bool}
    (h : skipRest steps opened complete c = .ok ((), after)) :
    (complete = true → Closes opened c after) ∧
      (complete = false → ∃ between, Skips c between ∧ Closes opened between after) := by
  induction steps generalizing opened complete c with
  | nil =>
    rw [skipRest] at h
    cases h
  | cons step steps ih =>
    refine ⟨?_, ?_⟩
    · rintro rfl
      cases opened with
      | nil =>
        rw [skipRest] at h
        cases h
        exact .nil
      | cons bracket opened =>
        rcases skipRest_true_cases h with ⟨b, hpeek, h⟩ | ⟨b, lead, hpeek, hlead, h⟩
        · exact .cons (.close hpeek) ((ih h).1 rfl)
        · obtain ⟨value, hvalue, hrest⟩ := (ih h).2 rfl
          cases hrest with
          | cons hbracket hopened => exact .cons (.next hpeek hlead hvalue hbracket) hopened
    · rintro rfl
      obtain ⟨char, b, hpeek, ⟨between, hscalar, h⟩ | ⟨bracket, rfl, h⟩⟩ :=
        exists_token_of_skipRest h
      · exact ⟨between, skips_scalar hpeek hscalar, (ih h).1 rfl⟩
      rcases enter_cases h with ⟨b', hclosing, h⟩ | ⟨char, b', lead, hentry, hchar, hlead, h⟩
      · exact ⟨_, skips_bracket bracket hpeek (.close hclosing), (ih h).1 rfl⟩
      · obtain ⟨value, hvalue, hrest⟩ := (ih h).2 rfl
        cases hrest with
        | @cons _ _ _ between _ hbracket hopened =>
          exact ⟨between, skips_bracket bracket hpeek (.first hentry hchar hlead hvalue hbracket),
            hopened⟩

/-- **What is skipped is a value**, and would be skipped inside any brackets. -/
theorem skips_of_skipValue (h : skipValue c = .ok ((), after)) : Skips c after := by
  obtain ⟨_, _, ⟨⟩, h⟩ := bind_eq_ok.mp h
  obtain ⟨between, hskips, hcloses⟩ := (closes_of_skipRest h).2 rfl
  cases hcloses
  exact hskips

end

end Reader

end Json

end SchemaGrammar
