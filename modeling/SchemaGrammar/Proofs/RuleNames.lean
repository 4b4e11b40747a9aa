import SchemaGrammar.Proofs.Translation

/-!
# Names of rules

A reserved name is a row of words with dashes between them: `string-3-plus-rule`. The words can be
read off the name, and they tell which leaf the rule is for, up to leaves with the same words.
Names of definitions begin with `def`, numbered names are a single word, and no reserved name is of
either kind.

## Main definitions

* `nameWords`, `leadWord`: the words of a name, and the first of them.
* `InWords`: a name is written in words. What its words are, which one is the first and that it is
  a name at all follow from this alone.
* `Terminal.reservedWords`, `Layout.reservedWords`: the words of reserved names.

## Main results

* `Terminal.inWords_of_ruleName?`, `Layout.inWords_anyJsonRule`: reserved names are written in
  their words.
* `Terminal.eq_or_of_ruleName?_eq`: leaves with one reserved name are the same.
-/

namespace SchemaGrammar

open Grammar

/-! ## Words -/

/-- The words of a name. -/
def nameWords (name : String) : List (List Char) := name.toList.splitOn '-'

/-- The first word of a name. -/
def leadWord (name : String) : List Char := name.toList.takeWhile (· != '-')

/-- A name is written in words of letters and digits, with dashes between them. -/
structure InWords (name : String) (words : List (List Char)) : Prop where
  text : name.toList = ['-'].intercalate words
  letters : (words.all fun word => word.all Char.isAlphanum) = true

namespace InWords

variable {name : String} {words rest : List (List Char)} {lead : List Char}

theorem dash_notMem (h : InWords name words) : ∀ word ∈ words, '-' ∉ word := fun word hword hdash =>
  absurd (List.all_eq_true.mp (List.all_eq_true.mp h.letters word hword) _ hdash) (by decide)

theorem nameWords_eq (h : InWords name words) (hne : words ≠ []) : nameWords name = words := by
  rw [nameWords, h.text, List.splitOn_intercalate '-' h.dash_notMem hne]

theorem leadWord_eq (h : InWords name (lead :: rest)) : leadWord name = lead := by
  have hlead : ∀ c ∈ lead, (c != '-') = true := fun c hc => by
    have hne : c ≠ '-' := fun heq => h.dash_notMem lead List.mem_cons_self (heq ▸ hc)
    simpa using hne
  rw [leadWord, h.text]
  cases rest with
  | nil => simpa [List.intercalate] using hlead
  | cons next rest =>
    rw [List.intercalate_cons_cons, List.append_assoc, List.takeWhile_append_of_pos hlead]
    simp

theorem isNameChar_of_mem_intercalate
    (h : (words.all fun word => word.all Char.isAlphanum) = true) {c : Char}
    (hc : c ∈ ['-'].intercalate words) : isNameChar c = true := by
  induction words with
  | nil => simp at hc
  | cons word words ih =>
    rw [List.all_cons, Bool.and_eq_true, List.all_eq_true] at h
    have hword : c ∈ word → isNameChar c = true := fun hc => by simp [isNameChar, h.1 c hc]
    cases words with
    | nil => exact hword (by simpa using hc)
    | cons next words =>
      rw [List.intercalate_cons_cons, List.mem_append, List.mem_append] at hc
      rcases hc with (hc | hc) | hc
      · exact hword hc
      · rw [List.mem_singleton.mp hc]
        decide
      · exact ih h.2 hc

theorem isName (h : InWords name (lead :: rest)) (hlead : lead ≠ []) : IsName name := by
  refine ⟨?_, fun c hc => isNameChar_of_mem_intercalate h.letters (h.text ▸ hc)⟩
  rw [h.text]
  cases rest <;> simp [List.intercalate, hlead]

end InWords

/-! ## Numerals -/

/-- A number as a word. -/
def numeral (n : Nat) : List Char := Nat.toDigits 10 n

theorem isDigit_of_mem_numeral {n : Nat} {c : Char} (h : c ∈ numeral n) : c.isDigit = true :=
  Nat.isDigit_of_mem_toDigits (by decide) (by decide) h

@[simp] theorem all_isAlphanum_numeral (n : Nat) : (numeral n).all Char.isAlphanum = true :=
  List.all_eq_true.mpr fun c hc => by simp [Char.isAlphanum, isDigit_of_mem_numeral hc]

/-- The number that a word says. -/
def numeralValue (word : List Char) : Nat := Nat.ofDigitChars 10 word 0

@[simp] theorem numeralValue_numeral (n : Nat) : numeralValue (numeral n) = n :=
  Nat.ofDigitChars_ten_toDigits

theorem numeral_inj {m n : Nat} (h : numeral m = numeral n) : m = n := by
  rw [← numeralValue_numeral m, h, numeralValue_numeral]

/-- A word that does not begin with a digit is not a number. -/
theorem numeral_ne {c : Char} (hc : c.isDigit = false) (rest : List Char) (n : Nat) :
    numeral n ≠ c :: rest := by
  intro h
  have := isDigit_of_mem_numeral (h ▸ List.mem_cons_self : c ∈ numeral n)
  rw [hc] at this
  exact Bool.false_ne_true this

/-! ## Reserved names -/

/-- The words of the reserved name of a leaf; none for a leaf that is written where it stands. -/
def Terminal.reservedWords : Terminal → List (List Char)
  | .null => ["null".toList, "rule".toList]
  | .boolean => ["boolean".toList, "rule".toList]
  | .number true => ["fractional".toList, "number".toList, "rule".toList]
  | .number false => ["integer".toList, "number".toList, "rule".toList]
  | .string ⟨0, none⟩ => ["string".toList, "rule".toList]
  | .string ⟨least, none⟩ => ["string".toList, numeral least, "plus".toList, "rule".toList]
  | .string ⟨least, some most⟩ => ["string".toList, numeral least, numeral most, "rule".toList]
  | .format .date => ["format".toList, "string".toList, "date".toList, "rule".toList]
  | .format .time => ["format".toList, "string".toList, "time".toList, "rule".toList]
  | .format .dateTime =>
    ["format".toList, "string".toList, "date".toList, "time".toList, "rule".toList]
  | .whitespace layout =>
    if layout.newLines then
      ["whitespace".toList, numeral layout.depth, numeral layout.padSpaces, "rule".toList]
    else ["whitespace".toList, "no".toList, "new".toList, "lines".toList, "rule".toList]
  | .stringChar => ["string".toList, "char".toList, "rule".toList]
  | .booleanLiteral _ | .numberLiteral _ | .stringLiteral _ | .verbatim _ => []

/-- The words of the name of any JSON value. -/
def Layout.reservedWords (l : Layout) : List (List Char) :=
  if l.newLines then
    ["any".toList, "json".toList, numeral l.depth, numeral l.padSpaces, "rule".toList]
  else ["any".toList, "json".toList, "no".toList, "new".toList, "lines".toList, "rule".toList]

/-- The first words of the reserved names of leaves. -/
def terminalLeads : List (List Char) :=
  ["null", "boolean", "fractional", "integer", "string", "format", "whitespace"].map String.toList

section

variable {t : Terminal} {name : String} (h : t.ruleName? = some name)

include h

/-- The reserved name of a leaf is written in its words. -/
theorem Terminal.inWords_of_ruleName? : InWords name t.reservedWords := by
  cases t with
  | null => cases h; exact ⟨by decide, by decide⟩
  | boolean => cases h; exact ⟨by decide, by decide⟩
  | number fractional => cases fractional <;> cases h <;> exact ⟨by decide, by decide⟩
  | format f => cases f <;> cases h <;> exact ⟨by decide, by decide⟩
  | stringChar => cases h; exact ⟨by decide, by decide⟩
  | string bounds =>
    cases h
    obtain ⟨least, most⟩ := bounds
    cases most with
    | none =>
      cases least with
      | zero => exact ⟨by decide, by decide⟩
      | succ least =>
        constructor
        · simp [LengthBounds.ruleName, reservedWords, numeral, List.intercalate]
        · simp [reservedWords]
    | some most =>
      constructor
      · simp [LengthBounds.ruleName, reservedWords, numeral, List.intercalate]
      · simp [reservedWords]
  | whitespace layout =>
    cases h
    rw [Layout.whitespaceRule, reservedWords]
    split_ifs
    · constructor
      · simp [whitespaceName, numeral, List.intercalate]
      · simp
    · exact ⟨by decide, by decide⟩
  | _ => cases h

theorem Terminal.exists_lead_of_ruleName? :
    ∃ lead ∈ terminalLeads, ∃ rest, t.reservedWords = lead :: rest := by
  cases t with
  | number fractional => cases fractional <;> exact ⟨_, by decide, _, rfl⟩
  | format f => cases f <;> exact ⟨_, by decide, _, rfl⟩
  | null | boolean | stringChar => exact ⟨_, by decide, _, rfl⟩
  | string bounds =>
    obtain ⟨least, most⟩ := bounds
    cases most <;> cases least <;> exact ⟨"string".toList, by decide, _, rfl⟩
  | whitespace layout =>
    refine ⟨"whitespace".toList, by decide, ?_⟩
    rw [reservedWords]
    split_ifs <;> exact ⟨_, rfl⟩
  | _ => cases h

theorem Terminal.nameWords_of_ruleName? : nameWords name = t.reservedWords := by
  obtain ⟨lead, -, rest, hwords⟩ := exists_lead_of_ruleName? h
  exact (inWords_of_ruleName? h).nameWords_eq (hwords ▸ List.cons_ne_nil lead rest)

theorem Terminal.leadWord_mem : leadWord name ∈ terminalLeads := by
  obtain ⟨lead, hlead, rest, hwords⟩ := exists_lead_of_ruleName? h
  have hname : InWords name (lead :: rest) := hwords ▸ inWords_of_ruleName? h
  rwa [hname.leadWord_eq]

theorem Terminal.isName_of_ruleName? : IsName name := by
  obtain ⟨lead, hlead, rest, hwords⟩ := exists_lead_of_ruleName? h
  have hname : InWords name (lead :: rest) := hwords ▸ inWords_of_ruleName? h
  refine hname.isName ?_
  rintro rfl
  exact absurd hlead (by decide)

end

namespace Layout

/-- The reserved name of any JSON value is written in its words, and the first one is `any`. -/
theorem inWords_anyJsonRule (l : Layout) :
    InWords l.anyJsonRule l.reservedWords ∧ ∃ rest, l.reservedWords = "any".toList :: rest := by
  rw [anyJsonRule, reservedWords]
  split_ifs
  · refine ⟨⟨?_, by simp⟩, _, rfl⟩
    simp [anyJsonName, numeral, List.intercalate]
  · exact ⟨⟨by decide, by decide⟩, _, rfl⟩

theorem nameWords_anyJsonRule (l : Layout) : nameWords l.anyJsonRule = l.reservedWords := by
  obtain ⟨hname, rest, hwords⟩ := l.inWords_anyJsonRule
  exact hname.nameWords_eq (hwords ▸ List.cons_ne_nil _ rest)

theorem leadWord_anyJsonRule (l : Layout) : leadWord l.anyJsonRule = "any".toList := by
  obtain ⟨hname, rest, hwords⟩ := l.inWords_anyJsonRule
  exact (hwords ▸ hname).leadWord_eq

theorem isName_anyJsonRule (l : Layout) : IsName l.anyJsonRule := by
  obtain ⟨hname, rest, hwords⟩ := l.inWords_anyJsonRule
  exact (hwords ▸ hname).isName (by decide)

end Layout

/-! ## Reading a reserved name back -/

/-- The leaf that the words of a reserved name tell. -/
def Terminal.ofWords : List (List Char) → Terminal
  | [] => .null
  | kind :: rest =>
    if kind = "null".toList then .null
    else if kind = "boolean".toList then .boolean
    else if kind = "fractional".toList then .number true
    else if kind = "integer".toList then .number false
    else if kind = "string".toList then
      match rest with
      | [least, most, _] =>
        if most = "plus".toList then .string ⟨numeralValue least, none⟩
        else .string ⟨numeralValue least, some (numeralValue most)⟩
      | [_, _] => .stringChar
      | _ => .string {}
    else if kind = "format".toList then
      match rest with
      | [_, which, _] => if which = "date".toList then .format .date else .format .time
      | _ => .format .dateTime
    else
      match rest with
      | [depth, pad, _] => .whitespace ⟨true, numeralValue pad, numeralValue depth⟩
      | _ => .whitespace Shapes.lineLayout

/-- A leaf is read off its name, but for the depth of blanks without line breaks. -/
theorem Terminal.ofWords_reservedWords {t : Terminal} {name : String}
    (h : t.ruleName? = some name) : Terminal.ofWords t.reservedWords = t ∨
      Terminal.ofWords t.reservedWords = .whitespace Shapes.lineLayout ∧
        ∃ layout, t = .whitespace layout ∧ layout.newLines = false := by
  cases t with
  | null => exact .inl rfl
  | boolean => exact .inl rfl
  | stringChar => exact .inl rfl
  | number fractional => cases fractional <;> exact .inl rfl
  | format f => cases f <;> exact .inl rfl
  | string bounds =>
    obtain ⟨least, most⟩ := bounds
    have hplus : ∀ n, numeral n ≠ ['p', 'l', 'u', 's'] := numeral_ne (by decide) _
    match least, most with
    | 0, none => exact .inl rfl
    | least + 1, none => simp [reservedWords, ofWords]
    | least, some most => simp [reservedWords, ofWords, hplus]
  | whitespace layout =>
    obtain ⟨newLines, pad, depth⟩ := layout
    cases newLines with
    | true => simp [reservedWords, ofWords]
    | false => exact .inr ⟨rfl, _, rfl, rfl⟩
  | _ => cases h

/-- **Leaves with one reserved name are the same**, but for the depth of blanks without line
breaks. -/
theorem Terminal.eq_or_of_ruleName?_eq {t t' : Terminal} {name : String}
    (h : t.ruleName? = some name) (h' : t'.ruleName? = some name) : t = t' ∨
      ∃ layout layout', t = .whitespace layout ∧ t' = .whitespace layout' ∧
        layout.newLines = false ∧ layout'.newLines = false := by
  have heq : Terminal.ofWords t.reservedWords = Terminal.ofWords t'.reservedWords := by
    rw [← nameWords_of_ruleName? h, nameWords_of_ruleName? h']
  rcases ofWords_reservedWords h with ht | ⟨ht, l, rfl, hl⟩ <;>
    rcases ofWords_reservedWords h' with ht' | ⟨ht', l', rfl, hl'⟩ <;> rw [ht, ht'] at heq
  · exact .inl heq
  · exact .inr ⟨_, l', heq, rfl, rfl, hl'⟩
  · exact .inr ⟨l, _, rfl, heq.symm, hl, rfl⟩
  · exact .inr ⟨l, l', rfl, rfl, hl, hl'⟩

/-- Free-form values with one reserved name have one language. -/
theorem Layout.jsonForm_eq_of_anyJsonRule_eq {l l' : Layout} (h : l.anyJsonRule = l'.anyJsonRule) :
    jsonForm l = jsonForm l' ∧ l.newLines = l'.newLines := by
  have hwords : l.reservedWords = l'.reservedWords := by
    rw [← l.nameWords_anyJsonRule, h, l'.nameWords_anyJsonRule]
  obtain ⟨newLines, pad, depth⟩ := l
  obtain ⟨newLines', pad', depth'⟩ := l'
  cases newLines <;> cases newLines' <;> simp [Layout.reservedWords] at hwords
  · exact ⟨jsonForm_eq_of_newLines_eq_false rfl rfl, rfl⟩
  · rw [numeral_inj hwords.1, numeral_inj hwords.2]
    exact ⟨rfl, rfl⟩

/-! ## Kinds of names -/

/-- A numbered name is a single word. -/
theorem inWords_numberedName (n : Nat) :
    InWords (Rules.numberedName n) ["rule".toList ++ numeral n] :=
  ⟨by simp [Rules.numberedName, numeral], by simp⟩

theorem leadWord_numberedName (n : Nat) :
    leadWord (Rules.numberedName n) = "rule".toList ++ numeral n :=
  (inWords_numberedName n).leadWord_eq

theorem isName_numberedName (n : Nat) : IsName (Rules.numberedName n) :=
  (inWords_numberedName n).isName (by simp)

theorem numberedName_inj {m n : Nat} (h : Rules.numberedName m = Rules.numberedName n) : m = n := by
  have := congrArg leadWord h
  rw [leadWord_numberedName, leadWord_numberedName] at this
  exact numeral_inj (List.append_cancel_left this)

/-- A name of a definition. -/
def IsDefinitionName (name : String) : Prop := IsName name ∧ leadWord name = "def".toList

theorem isNameChar_of_mem_numeral {n : Nat} {c : Char} (h : c ∈ numeral n) :
    isNameChar c = true := by
  simp [isNameChar, Char.isAlphanum, isDigit_of_mem_numeral h]

theorem toList_candidate (base : String) (n : Nat) :
    (Rules.candidate base n).toList =
      base.toList ++ if n ≤ 1 then [] else '-' :: numeral n := by
  rw [Rules.candidate]
  split_ifs <;> simp [numeral]

theorem isDefinitionName_candidate (name : String) (n : Nat) :
    IsDefinitionName (Rules.candidate (Rules.definitionName name) n) := by
  have hlead : ∀ c ∈ "def-".toList, isNameChar c = true :=
    List.all_eq_true.mp (by decide)
  have hbase : ∀ c ∈ name.toList.map (fun c => if c.isAlphanum || c = '-' then c else '-'),
      isNameChar c = true := by
    intro c hc
    obtain ⟨d, -, rfl⟩ := List.mem_map.mp hc
    split_ifs with hd
    · simpa [isNameChar] using hd
    · decide
  have hcount : ∀ c ∈ (if n ≤ 1 then [] else '-' :: numeral n), isNameChar c = true := by
    intro c hc
    split_ifs at hc
    · exact absurd hc List.not_mem_nil
    · rcases List.mem_cons.mp hc with rfl | hc
      · decide
      · exact isNameChar_of_mem_numeral hc
  refine ⟨⟨?_, fun c hc => ?_⟩, ?_⟩
  · simp [toList_candidate, Rules.definitionName]
  · rw [toList_candidate, Rules.definitionName, String.toList_append, String.toList_ofList,
      List.mem_append, List.mem_append] at hc
    rcases hc with (hc | hc) | hc
    · exact hlead c hc
    · exact hbase c (by simpa using hc)
    · exact hcount c hc
  · simp [leadWord, toList_candidate, Rules.definitionName]

theorem candidate_inj {base : String} {m n : Nat} (hm : 1 ≤ m) (hn : 1 ≤ n)
    (h : Rules.candidate base m = Rules.candidate base n) : m = n := by
  have h := congrArg String.toList h
  rw [toList_candidate, toList_candidate] at h
  have h := List.append_cancel_left h
  split_ifs at h
  · omega
  · exact numeral_inj (List.cons.inj h).2

end SchemaGrammar
