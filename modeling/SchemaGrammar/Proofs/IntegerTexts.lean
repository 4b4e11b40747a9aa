import SchemaGrammar.Proofs.ScalarDocuments

/-!
# Texts of integers

The grammar for integers is about spelling alone: a sign, if any, and digits without a zero in front
of others. The reader is about values: an integer is kept as such while it fits into 64 bits, with a
sign if it is negative, and what does not fit becomes a floating-point number. So does `-0`, which
has no counterpart among the integers. A check for integers passes what was kept as an integer.

The scan of the digits has one accumulator for the value so far and one for the number of digits
that came after it was full. Its specification is by induction on the digits: nothing is dropped
exactly if the value of all digits fits, and then the accumulator is this value.

## Main definitions

* `integerValue`: the value of a text of an integer.
* `integerSchema`, `integerRules`: the schema of integers, and the rules written for them.

## Main results

* `Json.exists_wholeDigits_eq`: what a scan of digits gives.
* `Json.Reader.number_eq_integer_iff`: which texts of integers are read as integers.
* `parse_integerSchema`: which texts of the grammar can be parsed.
-/

namespace SchemaGrammar

open Grammar

namespace Json

/-! ## Scanning digits -/

theorem le_ofDigitChars (w : List Char) (n : Nat) : n ≤ Nat.ofDigitChars 10 w n := by
  induction w generalizing n with
  | nil => exact le_rfl
  | cons c w ih =>
    rw [Nat.ofDigitChars_cons]
    exact le_trans (by omega) (ih _)

/-- Once a digit has been dropped, all further ones are. -/
theorem wholeDigits_succ {w : List Char} (hw : ∀ c ∈ w, c.isDigit = true)
    (significand dropped offset : Nat) :
    wholeDigits significand (dropped + 1) w offset =
      (significand, dropped + 1 + w.length, ⟨[], offset + w.length⟩) := by
  induction w generalizing dropped offset with
  | nil => rfl
  | cons c w ih =>
    obtain ⟨hc, hrest⟩ := List.forall_mem_cons.mp hw
    rw [wholeDigits, if_pos hc, if_neg (by simp), ih hrest, List.length_cons]
    congr 2
    · omega
    · congr 1
      omega

/-- **What a scan of digits gives**: nothing is dropped exactly if the value fits, and then it is
the value. -/
theorem exists_wholeDigits_eq {w : List Char} (hw : ∀ c ∈ w, c.isDigit = true) {n : Nat}
    (hn : n ≤ maxSignificand) (offset : Nat) :
    ∃ significand dropped,
      wholeDigits n 0 w offset = (significand, dropped, ⟨[], offset + w.length⟩) ∧
      (dropped = 0 ↔ Nat.ofDigitChars 10 w n ≤ maxSignificand) ∧
      (dropped = 0 → significand = Nat.ofDigitChars 10 w n) := by
  induction w generalizing n offset with
  | nil => exact ⟨n, 0, rfl, iff_of_true rfl hn, fun _ => rfl⟩
  | cons c w ih =>
    obtain ⟨hc, hrest⟩ := List.forall_mem_cons.mp hw
    have hnext : 10 * n + (c.toNat - '0'.toNat) = n * 10 + digitValue c := by
      rw [Nat.mul_comm]
      rfl
    have hoffset : offset + (c :: w).length = offset + 1 + w.length := by
      rw [List.length_cons]
      omega
    rw [wholeDigits, if_pos hc, Nat.ofDigitChars_cons, hnext, hoffset]
    by_cases hfits : n * 10 + digitValue c ≤ maxSignificand
    · rw [if_pos (by simp [hfits])]
      exact ih hrest hfits (offset + 1)
    · -- the value only grows, so it does not fit in the end either
      have hlarge : ¬ Nat.ofDigitChars 10 w (n * 10 + digitValue c) ≤ maxSignificand := fun hle =>
        hfits (le_trans (le_ofDigitChars w _) hle)
      rw [if_neg (by simp [hfits]), wholeDigits_succ hrest]
      exact ⟨n, _, rfl, iff_of_false (by omega) hlarge, fun h => absurd h (by omega)⟩

/-- Only zero has the value zero. -/
theorem numeralValue_eq_zero_iff {w : List Char} (h : IsIntegerPart w) :
    numeralValue w = 0 ↔ w = ['0'] := by
  refine ⟨fun hvalue => h.resolve_right ?_, fun heq => by rw [heq]; rfl⟩
  rintro ⟨⟨hne, hdigits⟩, hlead⟩
  obtain ⟨c, rest, rfl⟩ := List.exists_cons_of_ne_nil hne
  have hzero : c.toNat ≠ '0'.toNat := fun heq => hlead (congrArg some (Char.toNat_inj.mp heq))
  have hdigit := (Char.isDigit_iff_toNat.mp (hdigits c List.mem_cons_self)).1
  rw [numeralValue, Nat.ofDigitChars_cons] at hvalue
  have hle := le_ofDigitChars rest (10 * 0 + (c.toNat - '0'.toNat))
  omega

namespace Reader

/-! ## Reading numbers -/

/-- Scaling gives floating-point numbers only. -/
theorem real_ne_integer {negative : Bool} {significand : Nat} {exponent : Int} {c after : Cursor}
    {n : Int} : real negative significand exponent c ≠ .ok (.integer n, after) := by
  intro h
  unfold real at h
  cases hscale : Decimal.scale? significand exponent with
  | none =>
    rw [hscale] at h
    cases h
  | some x =>
    rw [hscale] at h
    cases h

/-- At the end of the text, a number is an integer if nothing was dropped and the sign fits. -/
theorem afterWhole_eq_integer_iff {negative : Bool} {significand dropped offset : Nat} {n : Int} :
    (∃ after, afterWhole negative significand dropped ⟨[], offset⟩ = .ok (.integer n, after) ∧
      IsBlank after.rest) ↔
      dropped = 0 ∧ (negative = false ∧ n = significand ∨
        negative = true ∧ (0 < significand ∧ significand ≤ UInt64.size / 2) ∧ n = -significand) := by
  have hend : afterWhole negative significand dropped ⟨[], offset⟩ =
      (if dropped ≠ 0 then real negative significand dropped
      else if !negative then pure (.integer significand)
      else if 0 < significand && significand ≤ UInt64.size / 2 then pure (.integer (-significand))
      else pure (.real (-significand.toUInt64.toFloat)) : Reader Number) ⟨[], offset⟩ := rfl
  have hpure : ∀ {i : Int}, (∃ after, (pure (.integer i) : Reader Number) ⟨[], offset⟩ =
      .ok (.integer n, after) ∧ IsBlank after.rest) ↔ n = i := by
    intro i
    constructor
    · rintro ⟨after, ⟨⟩, -⟩
      rfl
    · rintro rfl
      exact ⟨_, rfl, isBlank_nil⟩
  rw [hend]
  split_ifs with hdropped hsign hrange
  · refine iff_of_false ?_ fun h => hdropped h.1
    rintro ⟨after, h, -⟩
    exact real_ne_integer h
  · rw [hpure]
    simp_all
  · rw [hpure]
    simp_all
  · refine iff_of_false ?_ ?_
    · rintro ⟨after, ⟨⟩, -⟩
    · rintro ⟨-, ⟨hfalse, -⟩ | ⟨-, hbounds, -⟩⟩
      · simp [hfalse] at hsign
      · exact hrange (by simpa using hbounds)

/-- The digits of an integer are read up to the end. -/
theorem exists_unsignedNumber_eq {w : List Char} (h : IsIntegerPart w) (negative : Bool)
    (offset : Nat) :
    ∃ significand dropped offset', unsignedNumber negative ⟨w, offset⟩ =
        afterWhole negative significand dropped ⟨[], offset'⟩ ∧
      (dropped = 0 ↔ numeralValue w ≤ maxSignificand) ∧
      (dropped = 0 → significand = numeralValue w) := by
  rcases h with rfl | ⟨⟨hne, hdigits⟩, hlead⟩
  · exact ⟨0, 0, offset + 1, rfl, by decide, fun _ => by decide⟩
  · obtain ⟨significand, dropped, hscan, hfits, hvalue⟩ :=
      exists_wholeDigits_eq hdigits (Nat.zero_le maxSignificand) offset
    refine ⟨significand, dropped, offset + w.length, ?_, hfits, hvalue⟩
    obtain ⟨c, rest, rfl⟩ := List.exists_cons_of_ne_nil hne
    have hc := hdigits c List.mem_cons_self
    have hzero : c ≠ '0' := fun heq => hlead (congrArg some heq)
    have hstep : unsignedNumber negative ⟨c :: rest, offset⟩ =
        afterWhole negative (wholeDigits 0 0 (c :: rest) offset).1
          (wholeDigits 0 0 (c :: rest) offset).2.1 (wholeDigits 0 0 (c :: rest) offset).2.2 := by
      unfold unsignedNumber
      simp only [bind, StateT.bind, peek, Except.bind, List.head?_cons, hc]
      rfl
    rw [hstep, hscan]

end Reader

end Json

/-- The value of a text of an integer. -/
def integerValue : List Char → Int
  | '-' :: digits => -numeralValue digits
  | digits => numeralValue digits

theorem integerValue_of_isIntegerPart {w : List Char} (h : Json.IsIntegerPart w) :
    integerValue w = numeralValue w := by
  unfold integerValue
  split
  · next digits =>
    have hminus := h.isDigit '-' List.mem_cons_self
    cases hminus
  · rfl

namespace Json.Reader

/-- **Which texts of integers are read as integers**: those whose value fits into 64 bits, except
for `-0`. -/
theorem number_eq_integer_iff {w : List Char} (h : IsInteger w) (offset : Nat) {n : Int} :
    (∃ after, number ⟨w, offset⟩ = .ok (.integer n, after) ∧ IsBlank after.rest) ↔
      n = integerValue w ∧ w ≠ ['-', '0'] ∧ -2 ^ 63 ≤ integerValue w ∧ integerValue w < 2 ^ 64 := by
  have hmax : maxSignificand = 2 ^ 64 - 1 := rfl
  have hhalf : UInt64.size / 2 = 2 ^ 63 := rfl
  obtain @⟨sign, whole, hsign, hwhole⟩ := h
  rcases hsign with rfl | rfl
  · obtain ⟨significand, dropped, offset', hrun, hfits, hvalue⟩ :=
      exists_unsignedNumber_eq hwhole false offset
    have hnumber : number ⟨whole, offset⟩ = unsignedNumber false ⟨whole, offset⟩ := by
      have hhead : (whole.head? == some '-') = false := by
        cases whole with
        | nil => rfl
        | cons c rest =>
          have hc := hwhole.isDigit c List.mem_cons_self
          have hne : c ≠ '-' := by
            rintro rfl
            cases hc
          simpa using hne
      show (if (whole.head? == some '-') = true then _ else _ : Reader Number) ⟨whole, offset⟩ = _
      rw [hhead, if_neg Bool.false_ne_true]
    have hne : whole ≠ ['-', '0'] := by
      rintro rfl
      cases hwhole.isDigit '-' List.mem_cons_self
    rw [List.nil_append, hnumber, hrun, afterWhole_eq_integer_iff,
      integerValue_of_isIntegerPart hwhole, hfits]
    constructor
    · rintro ⟨hle, ⟨-, rfl⟩ | ⟨hfalse, -⟩⟩
      · have := hvalue (hfits.mpr hle)
        exact ⟨by rw [this], hne, by omega, by omega⟩
      · cases hfalse
    · rintro ⟨rfl, -, -, hlt⟩
      have hle : numeralValue whole ≤ maxSignificand := by omega
      exact ⟨hle, .inl ⟨rfl, by rw [hvalue (hfits.mpr hle)]⟩⟩
  · obtain ⟨significand, dropped, offset', hrun, hfits, hvalue⟩ :=
      exists_unsignedNumber_eq hwhole true (offset + 1)
    have hnumber : number ⟨['-'] ++ whole, offset⟩ = unsignedNumber true ⟨whole, offset + 1⟩ := rfl
    have hminus : integerValue (['-'] ++ whole) = -numeralValue whole := rfl
    have hzero : ['-'] ++ whole ≠ ['-', '0'] ↔ numeralValue whole ≠ 0 := by
      rw [Ne, Ne, numeralValue_eq_zero_iff hwhole]
      simp
    rw [hnumber, hrun, afterWhole_eq_integer_iff, hminus, hfits, hzero]
    constructor
    · rintro ⟨hle, ⟨hfalse, -⟩ | ⟨-, ⟨hpos, hbound⟩, rfl⟩⟩
      · cases hfalse
      · have := hvalue (hfits.mpr hle)
        exact ⟨by rw [this], by omega, by omega, by omega⟩
    · rintro ⟨rfl, hne, hge, -⟩
      have hle : numeralValue whole ≤ maxSignificand := by omega
      have := hvalue (hfits.mpr hle)
      exact ⟨hle, .inr ⟨rfl, by omega, by rw [this]⟩⟩

end Json.Reader

open Json Reader

/-! ## Documents -/

theorem Json.IsInteger.exists_cons {w : List Char} (h : IsInteger w) :
    ∃ c rest, w = c :: rest ∧ (c = '-' ∨ c.isDigit = true) := by
  obtain @⟨sign, whole, hsign, hwhole⟩ := h
  rcases hsign with rfl | rfl
  · cases whole with
    | nil => exact absurd hwhole (by simp [IsIntegerPart, IsDigits])
    | cons c rest => exact ⟨c, rest, rfl, .inr (hwhole.isDigit c List.mem_cons_self)⟩
  · exact ⟨'-', whole, rfl, .inl rfl⟩

/-- What begins like an integer is read as a number. -/
theorem exists_value_eq_number {w : List Char} (h : IsInteger w) (depth : Nat) :
    ∃ offset, value depth ⟨w, 0⟩ =
      (number >>= fun n => Pure.pure (.number n)) ⟨w, offset⟩ := by
  obtain ⟨c, rest, rfl, hc⟩ := h.exists_cons
  have hblank : Cursor.isBlank c = false := by
    cases hblank : Cursor.isBlank c with
    | false => rfl
    | true =>
      simp only [Cursor.isBlank, Bool.or_eq_true, beq_iff_eq] at hblank
      rcases hblank with ((rfl | rfl) | rfl) | rfl <;> simp at hc
  obtain ⟨offset, hpeek⟩ := peekToken_of_at (Cursor.at_rest ⟨c :: rest, 0⟩) hblank
  refine ⟨offset, ?_⟩
  -- no other value begins like this
  have hother : ∀ d : Char, d ≠ '-' → d.isDigit = false → c ≠ d := by
    rintro d hminus hdigit rfl
    rcases hc with rfl | hc
    · exact hminus rfl
    · rw [hc] at hdigit
      cases hdigit
  have hn := hother 'n' (by decide) rfl
  have ht := hother 't' (by decide) rfl
  have hf := hother 'f' (by decide) rfl
  have hquote := hother '"' (by decide) rfl
  have hlist := hother '[' (by decide) rfl
  have hobject := hother '\x7b' (by decide) rfl
  have hnumber : (decide (c = '-') || c.isDigit) = true := by simpa using hc
  rw [value.eq_def, bind_of_ok hpeek]
  cases depth <;> simp only [hnumber, if_true]

/-- A text of an integer as a document. -/
theorem parseDocument_eq_integer_iff {text : String} (h : IsInteger text.toList) {n : Int} :
    parseDocument text = .ok (.number (.integer n)) ↔
      n = integerValue text.toList ∧ text.toList ≠ ['-', '0'] ∧
        -2 ^ 63 ≤ integerValue text.toList ∧ integerValue text.toList < 2 ^ 64 := by
  obtain ⟨offset, hvalue⟩ := exists_value_eq_number h depthLimit
  rw [← number_eq_integer_iff h offset, parseDocument, parseNested_eq_ok_iff]
  simp only [readsAs_value_iff, hvalue, bind_eq_ok]
  constructor
  · rintro ⟨_, ⟨after, ⟨m, _, hnumber, ⟨⟩⟩, hblank⟩, hcollapsed⟩
    cases hcollapsed
    exact ⟨after, hnumber, hblank⟩
  · rintro ⟨after, hnumber, hblank⟩
    exact ⟨_, ⟨after, ⟨_, after, hnumber, rfl⟩, hblank⟩, rfl⟩

/-- The schema of integers. -/
def integerSchema : Schema := { types := some (.one .integer) }

theorem validate_integerSchema_iff {external : Assoc Schema} {v : Value} :
    validate integerSchema external v = .ok () ↔ ∃ n, v = .number (.integer n) := by
  cases v with
  | number n =>
    cases n with
    | integer n => exact iff_of_true rfl ⟨n, rfl⟩
    | real x => exact iff_of_false (by rintro ⟨⟩) (by simp)
  | _ => exact iff_of_false (by rintro ⟨⟩) (by simp)

/-- The rules that are written for integers. -/
def integerRules : Assoc Body := (Rules.terminal (.number false) {}).2.entries

theorem mem_derivable_integerRules {w : List Char} :
    w ∈ derivable integerRules "integer-number-rule" ↔ IsInteger w := by
  have hget : integerRules.get? "integer-number-rule" = some ((Terminal.number false).body .empty) :=
    rfl
  rw [derivable_of_get? hget, Terminal.language_body rfl]
  exact Lexeme.mem_integer_iff

theorem exists_compile_integerSchema (external : Assoc Schema) (options : Options) :
    ∃ c, CompiledSchema.compile integerSchema external options = .ok c ∧
      c.schema = integerSchema ∧ ∀ text, IsInteger text.toList → Accepts c.grammar text := by
  obtain ⟨lowered, hlower, hget⟩ : ∃ lowered,
      lower integerSchema external options.layout = .ok lowered ∧
        lowered.shapes.get? lowered.root = some (.terminal (.number false)) :=
    Lowering.exists_lower_leaf rfl rfl fun _ _ _ _ => rfl
  obtain ⟨c, hc, hschema, -, haccepts⟩ := exists_compile_leaf hlower hget (by simp)
  refine ⟨c, hc, hschema, fun text htext => (haccepts text).mpr ?_⟩
  exact ⟨text.toList, Lexeme.mem_integer_iff.mpr htext, 0, Nat.zero_le _, by simp⟩

/-- What is parsed of a text of an integer. -/
theorem parse_eq_ok_of_isInteger {c : CompiledSchema} (hschema : c.schema = integerSchema)
    {text : String} (h : IsInteger text.toList) {v : Value} :
    c.parse text = .ok v ↔
      v = .number (.integer (integerValue text.toList)) ∧ text ≠ "-0" ∧
        -2 ^ 63 ≤ integerValue text.toList ∧ integerValue text.toList < 2 ^ 64 := by
  have hzero : text ≠ "-0" ↔ text.toList ≠ ['-', '0'] := not_congr String.toList_inj.symm
  rw [CompiledSchema.parse_eq_ok_iff, hschema, validate_integerSchema_iff, hzero]
  constructor
  · rintro ⟨hparse, n, rfl⟩
    obtain ⟨rfl, hrange⟩ := (parseDocument_eq_integer_iff h).mp hparse
    exact ⟨rfl, hrange⟩
  · rintro ⟨rfl, hrange⟩
    exact ⟨(parseDocument_eq_integer_iff h).mpr ⟨rfl, hrange⟩, _, rfl⟩

/-- **Which texts of the grammar for integers can be parsed**: all that the rule for integers derives
are accepted, and parsing gives the integer that a text is, exactly if it fits into 64 bits and the
text is not `-0`. -/
theorem parse_integerSchema (external : Assoc Schema) (options : Options) :
    ∃ c, CompiledSchema.compile integerSchema external options = .ok c ∧
      ∀ text : String, text.toList ∈ derivable integerRules "integer-number-rule" →
        Accepts c.grammar text ∧ ∀ v, c.parse text = .ok v ↔
          v = .number (.integer (integerValue text.toList)) ∧ text ≠ "-0" ∧
            -2 ^ 63 ≤ integerValue text.toList ∧ integerValue text.toList < 2 ^ 64 := by
  obtain ⟨c, hc, hschema, haccepts⟩ := exists_compile_integerSchema external options
  refine ⟨c, hc, fun text htext => ?_⟩
  have hinteger := mem_derivable_integerRules.mp htext
  exact ⟨haccepts text hinteger, fun _ => parse_eq_ok_of_isInteger hschema hinteger⟩

/-- The least integer that fits. -/
theorem parse_integerSchema_least :
    "-9223372036854775808".toList ∈ derivable integerRules "integer-number-rule" ∧
    ∃ c, CompiledSchema.compile integerSchema [] {} = .ok c ∧
      c.parse "-9223372036854775808" = .ok (.number (.integer (-2 ^ 63))) := by
  have hwhole : IsIntegerPart "9223372036854775808".toList := .inr (by simp [IsDigits])
  have hmem : "-9223372036854775808".toList ∈ derivable integerRules "integer-number-rule" :=
    mem_derivable_integerRules.mpr (.intro (.inr rfl) hwhole)
  have hvalue : integerValue "-9223372036854775808".toList = -2 ^ 63 := by decide
  obtain ⟨c, hc, hall⟩ := parse_integerSchema [] {}
  refine ⟨hmem, c, hc, ((hall _ hmem).2 _).mpr ?_⟩
  rw [hvalue]
  exact ⟨rfl, by decide, by decide, by decide⟩

/-- A zero with a sign, and the first integer that does not fit, are derived and cannot be parsed. -/
theorem not_parse_integerSchema :
    ∃ c, CompiledSchema.compile integerSchema [] {} = .ok c ∧
      ∀ text ∈ ["-0", "18446744073709551616"],
        text.toList ∈ derivable integerRules "integer-number-rule" ∧ ∀ v, c.parse text ≠ .ok v := by
  obtain ⟨c, hc, hschema, -⟩ := exists_compile_integerSchema [] {}
  have hzero : IsInteger "-0".toList := .intro (.inr rfl) (.inl rfl)
  have hwhole : IsIntegerPart "18446744073709551616".toList := .inr (by simp [IsDigits])
  have hlarge : IsInteger "18446744073709551616".toList := .intro (.inl rfl) hwhole
  refine ⟨c, hc, List.forall_mem_cons.mpr ⟨⟨mem_derivable_integerRules.mpr hzero, ?_⟩,
    List.forall_mem_singleton.mpr ⟨mem_derivable_integerRules.mpr hlarge, ?_⟩⟩⟩
  · intro v hv
    exact ((parse_eq_ok_of_isInteger hschema hzero).mp hv).2.1 rfl
  · intro v hv
    obtain ⟨-, -, -, hlt⟩ := (parse_eq_ok_of_isInteger hschema hlarge).mp hv
    exact absurd hlt (by decide)

end SchemaGrammar
