import SchemaGrammar.Schema.OfText
import SchemaGrammar.Proofs.RepeatedMembers
import SchemaGrammar.Proofs.SkippedValues

/-!
# Reading a schema from text and from a value

A schema is read from a text keyword by keyword, and from a value that was read from the text
before. The two ways go through the same brackets in the same order: where both give something they
end at the same character, and the schema is the one that the value describes.

## Main results

* `Json.Reader.skips_form`: what is read in a form is a value of the text.
* `Json.Reader.inForm_of_form`: it is what the value there is read as.
-/

namespace SchemaGrammar

namespace Json

namespace Reader

variable {α β : Type}

/-! ## Where a form ends -/

section

variable {c between after : Cursor}

theorem fails_reject (problem : Problem) : Fails (reject problem : Reader α) := by
  rintro c a after ⟨⟩

theorem fails_rejectInside (closing : Cursor → Nat) (problem : Problem) :
    Fails (rejectInside closing problem : Reader α) := by
  rintro c a after ⟨⟩

theorem fails_mismatch (wanted : Wanted) : Fails (mismatch wanted : Reader α) := by
  refine Fails.bind (fun token => ?_) _
  split
  · exact fails_failAhead _
  · exact Fails.bind (fun _ => Fails.bind (fun _ => fails_reject _) _) _
  · exact Fails.bind (fun _ => Fails.bind (fun _ => fails_reject _) _) _
  · exact Fails.bind (fun _ => Fails.bind (fun _ => fails_reject _) _) _
  · exact Fails.bind (fun _ => fails_reject _) _
  · exact fails_reject _
  · exact fails_reject _
  · split
    · exact Fails.bind (fun _ => fails_reject _) _
    · exact fails_failAhead _

/-- A string is read. -/
theorem textForm_eq_ok {text : String} (h : textForm c = .ok (text, after)) :
    ∃ b, peekToken c = .ok (some '"', b) ∧ string b = .ok (text, after) := by
  obtain ⟨token, b, hpeek, h⟩ := bind_eq_ok.mp h
  split at h
  · exact ⟨b, hpeek, h⟩
  · exact absurd h (fails_mismatch _ _ _ _)

/-- A number is read. -/
theorem countForm_eq_ok {n : Nat} (h : countForm c = .ok (n, after)) :
    ∃ char b number', peekToken c = .ok (some char, b) ∧ (char = '-' ∨ char.isDigit = true) ∧
      number b = .ok (number', after) ∧ countOf .count maxCount number' = .ok n := by
  obtain ⟨token, b, hpeek, h⟩ := bind_eq_ok.mp h
  split at h
  · next char =>
    split at h
    · next hchar =>
      obtain ⟨number', _, hnumber, h⟩ := bind_eq_ok.mp h
      cases hcount : countOf .count maxCount number' with
      | error problem =>
        rw [hcount] at h
        cases h
      | ok n' =>
        rw [hcount] at h
        cases h
        exact ⟨char, b, number', hpeek, by simpa using hchar, hnumber, hcount⟩
    · exact absurd h (fails_mismatch _ _ _ _)
  · exact absurd h (fails_mismatch _ _ _ _)

/-- The value of a keyword is `null` where that means absence, or it is read in its form. -/
theorem keyword_eq_ok {read : (form : Form) → (closing : Cursor → Nat) → Reader form.Carrier}
    {closing : Cursor → Nat} {s s' : Schema} {k : Keyword}
    (h : keyword read closing s k c = .ok (s', after)) :
    (k.nullable = true ∧ s' = s ∧ ∃ b, peekToken c = .ok (some 'n', b) ∧
        (eat >>= fun _ => letters ['u', 'l', 'l']) b = .ok ((), after)) ∨
      ((k.nullable = true → c.skipBlanks.rest.head? ≠ some 'n') ∧
        ∃ x, s' = s.put k x ∧ read k.form closing c.skipBlanks = .ok (x, after)) := by
  obtain ⟨token, b, hpeek, h⟩ := bind_eq_ok.mp h
  obtain ⟨htoken, rfl⟩ := Prod.mk.inj (Except.ok.inj hpeek)
  split at h
  · next hnull =>
    obtain ⟨hnullable, hn⟩ := Bool.and_eq_true_iff.mp hnull
    obtain ⟨_, _, ⟨⟩, h⟩ := bind_eq_ok.mp h
    obtain ⟨_, _, hletters, h⟩ := bind_eq_ok.mp h
    cases h
    rw [beq_iff_eq.mp hn] at hpeek
    exact .inl ⟨hnullable, rfl, _, hpeek, bind_eq_ok.mpr ⟨(), _, rfl, hletters⟩⟩
  · next hnull =>
    obtain ⟨x, _, hread, h⟩ := bind_eq_ok.mp h
    cases h
    refine .inr ⟨fun hnullable hn => hnull ?_, x, rfl, hread⟩
    rw [hnullable, ← htoken, hn]
    rfl

end

section

variable {read : (form : Form) → (closing : Cursor → Nat) → Reader form.Carrier}
  {c between after : Cursor} {s s' : Schema}

theorem skips_keyword
    (hread : ∀ form closing c x after, read form closing c = .ok (x, after) → Skips c after)
    {closing : Cursor → Nat} {k : Keyword} (h : keyword read closing s k c = .ok (s', after)) :
    Skips c after := by
  rcases keyword_eq_ok h with ⟨-, -, b, hpeek, hnull⟩ | ⟨-, x, -, hx⟩
  · exact skips_scalar hpeek hnull
  · exact (hread _ _ _ _ _ hx).of_skipBlanks

/-- What one round of the loop over members can do. -/
theorem schemaMembers_cases {step : Char} {steps : Steps} {first : Bool} {seen : List Keyword}
    (h : schemaMembers read (step :: steps) first seen s c = .ok (s', after)) :
    (nextKey first c = .ok (none, after) ∧ s' = s) ∨
      ∃ name b lead value, nextKey first c = .ok (some name, b) ∧ colon b = .ok ((), lead) ∧
        ((Keyword.ofName? name = none ∧ skipValue lead = .ok ((), value) ∧
            schemaMembers read steps false seen s value = .ok (s', after)) ∨
          ∃ k t, Keyword.ofName? name = some k ∧ k ∉ seen ∧
            keyword read Cursor.afterObject s k lead = .ok (t, value) ∧
            schemaMembers read steps false (k :: seen) t value = .ok (s', after)) := by
  obtain ⟨name, b, hnext, h⟩ := bind_eq_ok.mp h
  cases name with
  | none =>
    cases h
    exact .inl ⟨hnext, rfl⟩
  | some name =>
    refine .inr ⟨name, b, ?_⟩
    cases hname : Keyword.ofName? name with
    | none =>
      simp only [hname] at h
      obtain ⟨_, lead, hcolon, h⟩ := bind_eq_ok.mp h
      obtain ⟨_, value, hskip, h⟩ := bind_eq_ok.mp h
      exact ⟨lead, value, hnext, hcolon, .inl ⟨rfl, within_eq_ok.mp hskip, h⟩⟩
    | some k =>
      simp only [hname] at h
      split at h
      · cases h
      · next hseen =>
        obtain ⟨_, lead, hcolon, h⟩ := bind_eq_ok.mp h
        obtain ⟨t, value, hkeyword, h⟩ := bind_eq_ok.mp h
        exact ⟨lead, value, hnext, hcolon, .inr ⟨k, t, rfl, hseen, within_eq_ok.mp hkeyword, h⟩⟩

theorem bracketRest_schemaMembers
    (hread : ∀ form closing c x after, read form closing c = .ok (x, after) → Skips c after)
    {steps : Steps} {first : Bool} {seen : List Keyword}
    (h : schemaMembers read steps first seen s c = .ok (s', between))
    (hclose : closeObject between = .ok ((), after)) : BracketRest .object first c after := by
  induction steps generalizing first seen s c with
  | nil => cases h
  | cons _ steps ih =>
    rcases schemaMembers_cases h with ⟨hnext, -⟩ | ⟨name, b, lead, value, hnext, hcolon,
      ⟨-, hskip, h⟩ | ⟨k, t, -, -, hkeyword, h⟩⟩
    · exact bracketRest_closeObject hnext hclose
    · exact bracketRest_member hnext hcolon (skips_of_skipValue hskip) (ih h)
    · exact bracketRest_member hnext hcolon (skips_keyword hread hkeyword) (ih h)

theorem bracketRest_schemaPositions
    (hread : ∀ form closing c x after, read form closing c = .ok (x, after) → Skips c after)
    {keywords : List Keyword} {index : Nat}
    (h : schemaPositions read keywords index s c = .ok (s', between))
    (hclose : closeList between = .ok ((), after)) : BracketRest .list (index == 0) c after := by
  induction keywords generalizing index s c with
  | nil =>
    cases h
    exact bracketRest_closeList hclose
  | cons k keywords ih =>
    obtain ⟨more, b, hnext, h⟩ := bind_eq_ok.mp h
    cases more with
    | true =>
      obtain ⟨_, value, hkeyword, h⟩ := bind_eq_ok.mp h
      exact bracketRest_item hnext (skips_keyword hread (within_eq_ok.mp hkeyword)) (ih h)
    | false =>
      cases h
      exact bracketRest_noItem hnext hclose

/-- A schema in braces is read. -/
theorem schemaBody_object_eq_ok (h : schemaBody read '\x7b' c = .ok (s, after)) :
    ∃ between, schemaMembers read (' ' :: ' ' :: c.skip.rest) true [] {} c.skip = .ok (s, between) ∧
      closeObject between = .ok ((), after) := by
  obtain ⟨_, _, ⟨⟩, h⟩ := bind_eq_ok.mp h
  rw [if_pos rfl] at h
  obtain ⟨_, _, ⟨⟩, h⟩ := bind_eq_ok.mp h
  obtain ⟨_, between, hmembers, h⟩ := bind_eq_ok.mp h
  obtain ⟨_, _, hclose, h⟩ := bind_eq_ok.mp h
  cases h
  exact ⟨between, hmembers, hclose⟩

/-- A schema in brackets is read. -/
theorem schemaBody_list_eq_ok (h : schemaBody read '[' c = .ok (s, after)) :
    ∃ between, schemaPositions read Keyword.all 0 {} c.skip = .ok (s, between) ∧
      closeList between = .ok ((), after) := by
  obtain ⟨_, _, ⟨⟩, h⟩ := bind_eq_ok.mp h
  rw [if_neg (by decide)] at h
  obtain ⟨_, between, hpositions, h⟩ := bind_eq_ok.mp h
  obtain ⟨_, _, hclose, h⟩ := bind_eq_ok.mp h
  cases h
  exact ⟨between, hpositions, hclose⟩

end

/-- What reading in a form can do, apart from going into brackets. -/
theorem schemaForm_eq_ok {depth : Nat} {closing : Cursor → Nat} {s : Schema} {c after : Cursor}
    (h : form depth .schema closing c = .ok (s, after)) :
    ∃ inner b, depth = inner + 1 ∧
      ((peekToken c = .ok (some '\x7b', b) ∧ schemaBody (form inner) '\x7b' b = .ok (s, after)) ∨
        (peekToken c = .ok (some '[', b) ∧ schemaBody (form inner) '[' b = .ok (s, after))) := by
  unfold form at h
  obtain ⟨token, b, hpeek, h⟩ := bind_eq_ok.mp h
  split at h
  · cases depth with
    | zero => cases h
    | succ inner => exact ⟨inner, b, rfl, .inl ⟨hpeek, h⟩⟩
  · cases depth with
    | zero => cases h
    | succ inner => exact ⟨inner, b, rfl, .inr ⟨hpeek, h⟩⟩
  · exact absurd h (fails_mismatch _ _ _ _)

theorem listForm_eq_ok {depth : Nat} {item : Form} {closing : Cursor → Nat}
    {xs : List item.Carrier} {c after : Cursor}
    (h : form depth (.listOf item) closing c = .ok (xs, after)) :
    ∃ inner b, depth = inner + 1 ∧ peekToken c = .ok (some '[', b) ∧
      list (form inner item Cursor.afterList) b = .ok (xs, after) := by
  unfold form at h
  obtain ⟨token, b, hpeek, h⟩ := bind_eq_ok.mp h
  split at h
  · cases depth with
    | zero => cases h
    | succ inner => exact ⟨inner, b, rfl, hpeek, h⟩
  · exact absurd h (fails_mismatch _ _ _ _)

theorem mapForm_eq_ok {depth : Nat} {entry : Form} {closing : Cursor → Nat}
    {xs : List (String × entry.Carrier)} {c after : Cursor}
    (h : form depth (.mapOf entry) closing c = .ok (xs, after)) :
    ∃ inner b entries, depth = inner + 1 ∧ peekToken c = .ok (some '\x7b', b) ∧
      object (form inner entry Cursor.afterObject) b = .ok (entries, after) ∧
      xs = Assoc.ofList entries := by
  unfold form at h
  obtain ⟨token, b, hpeek, h⟩ := bind_eq_ok.mp h
  split at h
  · cases depth with
    | zero => cases h
    | succ inner =>
      obtain ⟨entries, _, hobject, h⟩ := bind_eq_ok.mp h
      cases h
      exact ⟨inner, b, entries, rfl, hpeek, hobject, rfl⟩
  · exact absurd h (fails_mismatch _ _ _ _)

/-- Where a value is read first and then given the form. -/
theorem readForm_eq_ok {depth : Nat} {wanted : Form} {closing : Cursor → Nat} {x : wanted.Carrier}
    {c after : Cursor} (hwanted : wanted = .value ∨ wanted = .types ∨ wanted = .additional)
    (h : form depth wanted closing c = .ok (x, after)) :
    ∃ v, value depth c = .ok (v, after) ∧ v.inForm wanted = .ok x := by
  rcases hwanted with rfl | rfl | rfl
  · unfold form at h
    obtain ⟨v, _, hvalue, h⟩ := bind_eq_ok.mp h
    cases h
    exact ⟨v, hvalue, Value.inForm_value v⟩
  · unfold form at h
    obtain ⟨v, _, hvalue, h⟩ := bind_eq_ok.mp h
    cases htypes : TypeSet.ofValue? v with
    | none =>
      simp only [htypes] at h
      cases h
    | some types =>
      simp only [htypes] at h
      cases h
      exact ⟨v, hvalue, Value.inForm_types htypes⟩
  · unfold form at h
    obtain ⟨v, _, hvalue, h⟩ := bind_eq_ok.mp h
    cases hadditional : v.inForm .additional with
    | error e =>
      simp only [hadditional] at h
      cases h
    | ok a =>
      simp only [hadditional] at h
      cases h
      exact ⟨v, hvalue, hadditional⟩

/-- **What is read in a form is a value of the text.** -/
theorem skips_form {depth : Nat} {wanted : Form} {closing : Cursor → Nat} {x : wanted.Carrier}
    {c after : Cursor} (h : form depth wanted closing c = .ok (x, after)) : Skips c after := by
  induction depth using Nat.strongRecOn generalizing wanted closing c after with
  | ind depth ih =>
    cases wanted with
    | text =>
      rw [form_text] at h
      obtain ⟨b, hpeek, hstring⟩ := textForm_eq_ok h
      exact skips_string hpeek hstring
    | count =>
      rw [form_count] at h
      obtain ⟨char, b, n, hpeek, hchar, hnumber, -⟩ := countForm_eq_ok h
      exact skips_number hpeek hchar hnumber
    | value =>
      obtain ⟨v, hvalue, -⟩ := readForm_eq_ok (.inl rfl) h
      exact skips_value hvalue
    | types =>
      obtain ⟨v, hvalue, -⟩ := readForm_eq_ok (.inr (.inl rfl)) h
      exact skips_value hvalue
    | additional =>
      obtain ⟨v, hvalue, -⟩ := readForm_eq_ok (.inr (.inr rfl)) h
      exact skips_value hvalue
    | schema =>
      obtain ⟨inner, b, rfl, ⟨hpeek, hbody⟩ | ⟨hpeek, hbody⟩⟩ := schemaForm_eq_ok h
      · obtain ⟨between, hmembers, hclose⟩ := schemaBody_object_eq_ok hbody
        exact skips_bracket .object hpeek (bracketRest_schemaMembers
          (fun _ _ _ _ _ hread => ih inner inner.lt_succ_self hread) hmembers hclose)
      · obtain ⟨between, hpositions, hclose⟩ := schemaBody_list_eq_ok hbody
        exact skips_bracket .list hpeek (bracketRest_schemaPositions
          (fun _ _ _ _ _ hread => ih inner inner.lt_succ_self hread) hpositions hclose)
    | listOf item =>
      obtain ⟨inner, b, rfl, hpeek, hlist⟩ := listForm_eq_ok h
      exact skips_list (fun _ _ _ hread => ih inner inner.lt_succ_self hread) hpeek hlist
    | mapOf entry =>
      obtain ⟨inner, b, entries, rfl, hpeek, hobject, -⟩ := mapForm_eq_ok h
      exact skips_object (fun _ _ _ hread => ih inner inner.lt_succ_self hread) hpeek hobject

/-! ## What value it is -/

section

variable {c between after after' : Cursor} {depth : Nat} {v : Value}

theorem value_of_null (hpeek : peekToken c = .ok (some 'n', between))
    (h : value depth c = .ok (v, after)) : v = .null := by
  rw [value.eq_def, bind_of_ok hpeek] at h
  obtain ⟨_, _, ⟨⟩, h⟩ := bind_eq_ok.mp h
  obtain ⟨_, _, -, h⟩ := bind_eq_ok.mp h
  cases h
  rfl

theorem value_of_string {text : String} (hpeek : peekToken c = .ok (some '"', between))
    (hstring : string between = .ok (text, after)) (h : value depth c = .ok (v, after')) :
    v = .string text := by
  rw [value.eq_def, bind_of_ok hpeek] at h
  obtain ⟨text', _, hstring', h⟩ := bind_eq_ok.mp h
  rw [hstring] at hstring'
  cases hstring'
  cases h
  rfl

theorem value_of_number {char : Char} {n : Number}
    (hpeek : peekToken c = .ok (some char, between)) (hchar : char = '-' ∨ char.isDigit = true)
    (hnumber : number between = .ok (n, after)) (h : value depth c = .ok (v, after')) :
    v = .number n := by
  have hne : ∀ {x : Char}, x ≠ '-' → x.isDigit = false → char ≠ x := by
    rintro x hx hdigit rfl
    rw [hdigit] at hchar
    exact hchar.elim hx Bool.false_ne_true
  rw [value.eq_def, bind_of_ok hpeek] at h
  generalize htoken : some char = token at h
  split at h
  · cases htoken
  · exact absurd (Option.some.inj htoken) (hne (by decide) (by decide))
  · exact absurd (Option.some.inj htoken) (hne (by decide) (by decide))
  · exact absurd (Option.some.inj htoken) (hne (by decide) (by decide))
  · exact absurd (Option.some.inj htoken) (hne (by decide) (by decide))
  · exact absurd (Option.some.inj htoken) (hne (by decide) (by decide))
  · exact absurd (Option.some.inj htoken) (hne (by decide) (by decide))
  · cases htoken
    rw [if_pos (by simpa using hchar)] at h
    obtain ⟨n', _, hnumber', h⟩ := bind_eq_ok.mp h
    rw [hnumber] at hnumber'
    cases hnumber'
    cases h
    rfl

theorem value_of_list (hpeek : peekToken c = .ok (some '[', between))
    (h : value (depth + 1) c = .ok (v, after)) :
    ∃ items, v = .array items ∧ list (value depth) between = .ok (items, after) := by
  rw [value.eq_def, bind_of_ok hpeek] at h
  obtain ⟨items, _, hlist, h⟩ := bind_eq_ok.mp h
  cases h
  exact ⟨items, rfl, hlist⟩

theorem value_of_object (hpeek : peekToken c = .ok (some '\x7b', between))
    (h : value (depth + 1) c = .ok (v, after)) :
    ∃ entries, v = .object entries ∧ object (value depth) between = .ok (entries, after) := by
  rw [value.eq_def, bind_of_ok hpeek] at h
  obtain ⟨entries, _, hobject, h⟩ := bind_eq_ok.mp h
  cases h
  exact ⟨entries, rfl, hobject⟩

theorem eq_of_bind_pure {m : Reader α} {g : α → Value}
    (h : (m >>= fun a => Pure.pure (g a)) c = .ok (v, after)) : ∃ a, v = g a := by
  obtain ⟨a, _, -, h⟩ := bind_eq_ok.mp h
  cases h
  exact ⟨a, rfl⟩

/-- A value is `null` only where the next token begins this word. -/
theorem head_of_null (h : value depth c = .ok (v, after)) (hv : v.kind = .null) :
    c.skipBlanks.rest.head? = some 'n' := by
  rw [value.eq_def] at h
  obtain ⟨token, b, hpeek, h⟩ := bind_eq_ok.mp h
  have hhead : c.skipBlanks.rest.head? = token := congrArg Prod.fst (Except.ok.inj hpeek)
  rw [hhead]
  split at h
  · cases h
  · rfl
  · obtain ⟨_, _, -, h⟩ := bind_eq_ok.mp h
    obtain ⟨_, rfl⟩ := eq_of_bind_pure h
    cases hv
  · obtain ⟨_, _, -, h⟩ := bind_eq_ok.mp h
    obtain ⟨_, rfl⟩ := eq_of_bind_pure h
    cases hv
  · obtain ⟨_, rfl⟩ := eq_of_bind_pure h
    cases hv
  · cases depth with
    | zero => cases h
    | succ depth =>
      obtain ⟨_, rfl⟩ := eq_of_bind_pure h
      cases hv
  · cases depth with
    | zero => cases h
    | succ depth =>
      obtain ⟨_, rfl⟩ := eq_of_bind_pure h
      cases hv
  · split at h
    · obtain ⟨_, rfl⟩ := eq_of_bind_pure h
      cases hv
    · cases h

end

/-! ### Two readers in lockstep -/

section

variable {read : Reader α} {read' : Reader β} {R : α → β → Prop} {c after after' : Cursor}

/-- Two ways of reading items that end at the same places see the same items. -/
theorem forall₂_elements
    (hread : ∀ c a after b after', read c = .ok (a, after) → read' c = .ok (b, after') →
      after = after' ∧ R a b)
    {steps : Steps} {index : Nat} {done items : List α} {done' items' : List β}
    (hdone : List.Forall₂ R done done')
    (h : elements read steps index done c = .ok (items, after))
    (h' : elements read' steps index done' c = .ok (items', after')) :
    List.Forall₂ R items items' := by
  induction steps generalizing index done done' c with
  | nil => cases h
  | cons _ steps ih =>
    rcases elements_cases h with ⟨hnext, rfl⟩ | ⟨b, item, value, hnext, hitem, h⟩
    · rcases elements_cases h' with ⟨-, rfl⟩ | ⟨_, _, _, hnext', -⟩
      · exact List.forall₂_reverse_iff.mpr hdone
      · rw [hnext] at hnext'
        cases hnext'
    · rcases elements_cases h' with ⟨hnext', -⟩ | ⟨b', item', value', hnext', hitem', h'⟩
      · rw [hnext] at hnext'
        cases hnext'
      · rw [hnext] at hnext'
        cases hnext'
        obtain ⟨rfl, hR⟩ := hread _ _ _ _ _ hitem hitem'
        exact ih (.cons hR hdone) h h'

/-- Two ways of reading members that end at the same places see the same members. -/
theorem forall₂_members
    (hread : ∀ c a after b after', read c = .ok (a, after) → read' c = .ok (b, after') →
      after = after' ∧ R a b)
    {steps : Steps} {first : Bool} {done entries : List (String × α)}
    {done' entries' : List (String × β)}
    (hdone : List.Forall₂ (fun e e' => e.1 = e'.1 ∧ R e.2 e'.2) done done')
    (h : members read steps first done c = .ok (entries, after))
    (h' : members read' steps first done' c = .ok (entries', after')) :
    List.Forall₂ (fun e e' => e.1 = e'.1 ∧ R e.2 e'.2) entries entries' := by
  induction steps generalizing first done done' c with
  | nil => cases h
  | cons _ steps ih =>
    rcases members_cases h with ⟨hnext, rfl⟩ | ⟨name, b, lead, entry, value, hnext, hcolon, he, h⟩
    · rcases members_cases h' with ⟨-, rfl⟩ | ⟨_, _, _, _, _, hnext', -⟩
      · exact List.forall₂_reverse_iff.mpr hdone
      · rw [hnext] at hnext'
        cases hnext'
    · rcases members_cases h' with ⟨hnext', -⟩ | ⟨_, _, _, _, _, hnext', hcolon', he', h'⟩
      · rw [hnext] at hnext'
        cases hnext'
      · rw [hnext] at hnext'
        cases hnext'
        rw [hcolon] at hcolon'
        cases hcolon'
        obtain ⟨rfl, hR⟩ := hread _ _ _ _ _ he he'
        exact ih (.cons ⟨rfl, hR⟩ hdone) h h'

end

/-! ### Schemas -/

/-- Reading in a form and reading a value agree: both end at the same place, and the form is that
of the value. -/
def AgreesWith (read : (form : Form) → (closing : Cursor → Nat) → Reader form.Carrier)
    (depth : Nat) : Prop :=
  ∀ form closing c x after v after', read form closing c = .ok (x, after) →
    value depth c = .ok (v, after') → after = after' ∧ v.inForm form = .ok x

section

variable {read : (form : Form) → (closing : Cursor → Nat) → Reader form.Carrier} {depth : Nat}
  {c between after after' : Cursor} {s s' : Schema}

theorem value_skipBlanks (depth : Nat) (c : Cursor) : value depth c.skipBlanks = value depth c := by
  rw [value.eq_def]
  exact peekToken_bind_skipBlanks _ c

theorem AgreesWith.keyword (hread : AgreesWith read depth) {closing : Cursor → Nat} {k : Keyword}
    {v : Value} (h : keyword read closing s k c = .ok (s', after))
    (hv : value depth c = .ok (v, after')) :
    after = after' ∧ s.putRead k v (v.inForm k.form) = .ok s' := by
  rcases keyword_eq_ok h with ⟨hnullable, rfl, b, hpeek, hnull⟩ | ⟨hhead, x, rfl, hx⟩
  · refine ⟨(skips_scalar hpeek hnull).unique (skips_value hv), ?_⟩
    rw [value_of_null hpeek hv, Schema.putRead, if_pos (by rw [hnullable]; rfl)]
  · rw [← value_skipBlanks] at hv
    obtain ⟨hafter, hform⟩ := hread _ _ _ _ _ _ _ hx hv
    refine ⟨hafter, ?_⟩
    rw [value_skipBlanks] at hv
    rw [Schema.putRead, if_neg, hform]
    · rfl
    · rw [Bool.and_eq_true, decide_eq_true_iff]
      exact fun hnull => hhead hnull.1 (head_of_null hv hnull.2)

theorem AgreesWith.schemaMembers (hread : AgreesWith read depth) {steps : Steps} {first : Bool}
    {seen : List Keyword} {done entries : List (String × Value)}
    (h : schemaMembers read steps first seen s c = .ok (s', after))
    (h' : members (value depth) steps first done c = .ok (entries, after')) :
    ∃ new, entries = done.reverse ++ new ∧ Value.schemaOfMembers new seen s = .ok s' := by
  induction steps generalizing first seen done s c with
  | nil => cases h
  | cons _ steps ih =>
    rcases members_cases h' with ⟨hnext', rfl⟩ | ⟨name, _, _, v, value', hnext', hcolon', hv, h'⟩
    · rcases schemaMembers_cases h with ⟨-, rfl⟩ | ⟨_, _, _, _, hnext, -⟩
      · exact ⟨[], (List.append_nil _).symm, rfl⟩
      · rw [hnext] at hnext'
        cases hnext'
    rcases schemaMembers_cases h with ⟨hnext, -⟩ | ⟨_, b, lead, value, hnext, hcolon, hround⟩
    · rw [hnext] at hnext'
      cases hnext'
    rw [hnext] at hnext'
    cases hnext'
    rw [hcolon] at hcolon'
    cases hcolon'
    rcases hround with ⟨hname, hskip, h⟩ | ⟨k, t, hname, hseen, hkeyword, h⟩
    · obtain rfl := (skips_of_skipValue hskip).unique (skips_value hv)
      obtain ⟨new, hentries, hnew⟩ := ih h h'
      refine ⟨(name, v) :: new, by rw [hentries]; simp, ?_⟩
      rw [Value.schemaOfMembers_of_other hname, hnew]
    · obtain ⟨rfl, hput⟩ := hread.keyword hkeyword hv
      obtain ⟨new, hentries, hnew⟩ := ih h h'
      refine ⟨(name, v) :: new, by rw [hentries]; simp, ?_⟩
      exact (Value.schemaOfMembers_keyword_iff hname).mpr ⟨hseen, t, hput, hnew⟩

theorem noItem_of_closeList (h : closeList c = .ok ((), after)) (first : Bool) :
    ∃ b, hasNextItem first c = .ok (false, b) := by
  obtain ⟨b, hpeek, -⟩ := peekToken_of_closeList h
  exact ⟨b, bind_of_ok hpeek⟩

theorem AgreesWith.schemaPositions (hread : AgreesWith read depth) {keywords : List Keyword}
    {steps : Steps} {index length : Nat} {done items : List Value}
    (h : schemaPositions read keywords index s c = .ok (s', between))
    (hclose : closeList between = .ok ((), after))
    (h' : elements (value depth) steps index done c = .ok (items, after')) :
    ∃ new, items = done.reverse ++ new ∧
      Value.schemaOfPositions new length index keywords s = .ok s' := by
  induction keywords generalizing steps index done s c with
  | nil =>
    cases h
    cases steps with
    | nil => cases h'
    | cons _ steps =>
      -- no keyword is left, and the list ends here
      obtain ⟨b, hend⟩ := noItem_of_closeList hclose (index == 0)
      rcases elements_cases h' with ⟨-, rfl⟩ | ⟨_, _, _, hnext', -⟩
      · exact ⟨[], (List.append_nil _).symm, rfl⟩
      · rw [hend] at hnext'
        cases hnext'
  | cons k keywords ih =>
    cases steps with
    | nil => cases h'
    | cons _ steps =>
      obtain ⟨more, b, hnext, h⟩ := bind_eq_ok.mp h
      rcases elements_cases h' with ⟨hnext', rfl⟩ | ⟨_, v, value', hnext', hv, h'⟩
      · rw [hnext] at hnext'
        cases hnext'
        cases h
        exact ⟨[], (List.append_nil _).symm, rfl⟩
      · rw [hnext] at hnext'
        cases hnext'
        obtain ⟨t, value, hkeyword, h⟩ := bind_eq_ok.mp h
        obtain ⟨rfl, hput⟩ := hread.keyword (within_eq_ok.mp hkeyword) hv
        obtain ⟨new, hitems, hnew⟩ := ih h h'
        refine ⟨v :: new, by rw [hitems]; simp, ?_⟩
        exact Value.bind_eq_ok_iff.mpr ⟨t, Value.mapError_eq_ok_iff.mpr hput, hnew⟩

end

/-- **What is read in a form is the form of the value that stands there.** -/
theorem agreesWith_form (depth : Nat) : AgreesWith (form depth) depth := by
  induction depth using Nat.strongRecOn with
  | ind depth ih =>
    intro wanted closing c x after v after' h hv
    refine ⟨(skips_form h).unique (skips_value hv), ?_⟩
    cases wanted with
    | text =>
      rw [form_text] at h
      obtain ⟨b, hpeek, hstring⟩ := textForm_eq_ok h
      rw [value_of_string hpeek hstring hv, Value.inForm_text]
    | count =>
      rw [form_count] at h
      obtain ⟨char, b, n, hpeek, hchar, hnumber, hcount⟩ := countForm_eq_ok h
      rw [value_of_number hpeek hchar hnumber hv, Value.inForm_count, hcount]
      rfl
    | value | types | additional =>
      obtain ⟨v', hv', hform⟩ := readForm_eq_ok (by simp) h
      cases hv.symm.trans hv'
      exact hform
    | schema =>
      obtain ⟨inner, b, rfl, ⟨hpeek, hbody⟩ | ⟨hpeek, hbody⟩⟩ := schemaForm_eq_ok h
      · obtain ⟨between, hmembers, -⟩ := schemaBody_object_eq_ok hbody
        obtain ⟨entries, rfl, hobject⟩ := value_of_object hpeek hv
        obtain ⟨_, hentries, -⟩ := object_eq_ok hobject
        obtain ⟨new, rfl, hnew⟩ := (ih inner inner.lt_succ_self).schemaMembers hmembers hentries
        rw [Value.inForm_object]
        exact hnew
      · obtain ⟨between, hpositions, hclose⟩ := schemaBody_list_eq_ok hbody
        obtain ⟨items, rfl, hlist⟩ := value_of_list hpeek hv
        obtain ⟨_, hitems, -⟩ := list_eq_ok hlist
        obtain ⟨new, rfl, hnew⟩ :=
          (ih inner inner.lt_succ_self).schemaPositions hpositions hclose hitems
        exact hnew
    | listOf item =>
      obtain ⟨inner, b, rfl, hpeek, hlist⟩ := listForm_eq_ok h
      obtain ⟨items, rfl, hlist'⟩ := value_of_list hpeek hv
      obtain ⟨_, helements, -⟩ := list_eq_ok hlist
      obtain ⟨_, helements', -⟩ := list_eq_ok hlist'
      rw [Value.inForm_listOf, Value.itemsInForm_eq_ok_iff]
      refine (forall₂_elements (fun c x after v after' hx hv => ?_) .nil helements helements').flip
      exact ih inner inner.lt_succ_self _ _ _ _ _ _ _ hx hv
    | mapOf entry =>
      obtain ⟨inner, b, entries, rfl, hpeek, hobject, rfl⟩ := mapForm_eq_ok h
      obtain ⟨members, rfl, hobject'⟩ := value_of_object hpeek hv
      obtain ⟨_, hmembers, -⟩ := object_eq_ok hobject
      obtain ⟨_, hmembers', -⟩ := object_eq_ok hobject'
      have hentries : Value.entriesInForm entry members = .ok entries := by
        rw [Value.entriesInForm_eq_ok_iff]
        refine forall₂_members (R := fun v x => v.inForm entry = .ok x)
          (fun c v after x after' hv hx => ?_) .nil hmembers' hmembers
        obtain ⟨hafter, hform⟩ := ih inner inner.lt_succ_self _ _ _ _ _ _ _ hx hv
        exact ⟨hafter.symm, hform⟩
      rw [Value.inForm_mapOf, hentries]
      rfl

end Reader

end Json

end SchemaGrammar
