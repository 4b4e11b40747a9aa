import SchemaGrammar.Proofs.Reading
import SchemaGrammar.Rules.Emitter

/-!
# Bodies read back from their text

Rules are shared by the text of their bodies, and a grammar is handed on as text, so it has to be
known that a text determines its body. `Body.Readable` lists what that takes: rule names are made
of name characters, classes spell themselves, and every group has a choice. `readBody_text` says
that such a body is read back from its text, up to where the brackets of a group stand; it follows
(`Body.language_congr`) that bodies of equal text have equal languages.

## Main definitions

* `Item.tokens`: the tokens that an expression is written in.
* `Body.Readable`: the bodies that their text determines.

## Main results

* `readBody_text`: reading is a left inverse of writing.
* `Body.language_congr`: equal texts, equal languages.
* `accepts_iff_derivable`: what a written grammar accepts is what its rules derive.
-/

namespace SchemaGrammar

namespace Grammar

/-! ## Tokens of expressions -/

/-- The token of a count, if it has a mark at all. -/
def Count.tokens : Count → List Token
  | .once => []
  | count => [.mark count]

mutual

/-- The tokens of an item. -/
def Item.tokens : Item → List Token
  | .literal text count => .atom (.literal text .once) :: count.tokens
  | .chars set count => .atom (.chars set .once) :: count.tokens
  | .rule name count => .atom (.rule name .once) :: count.tokens
  | .group _ choices count => .opening :: (choicesTokens choices ++ .closing :: count.tokens)

/-- The tokens of a sequence. -/
def sequenceTokens : List Item → List Token
  | [] => []
  | i :: items => i.tokens ++ sequenceTokens items

/-- The tokens of a choice. -/
def choicesTokens : List (List Item) → List Token
  | [] => []
  | [items] => sequenceTokens items
  | items :: choices => sequenceTokens items ++ .bar :: choicesTokens choices

end

/-! ## Readable expressions -/

/-- Whether a text can be the name of a rule. -/
def IsName (name : String) : Prop := name.toList ≠ [] ∧ ∀ c ∈ name.toList, isNameChar c

instance (name : String) : Decidable (IsName name) :=
  @instDecidableAnd _ _ _ (List.decidableBAll (fun c => isNameChar c) name.toList)

/-- A class whose text is read as that class. -/
def CharClass.Readable (set : CharClass) : Prop :=
  Lexer.run .between set.text.toList = some ([.atom (.chars set .once)], .between)

mutual

/-- An item that its text determines. -/
def Item.Readable : Item → Prop
  | .literal _ _ => True
  | .chars set _ => set.Readable
  | .rule name _ => IsName name
  | .group _ choices _ => choices ≠ [] ∧ ChoicesReadable choices

/-- A sequence of such items. -/
def SequenceReadable : List Item → Prop
  | [] => True
  | i :: items => i.Readable ∧ SequenceReadable items

/-- A choice between such sequences. -/
def ChoicesReadable : List (List Item) → Prop
  | [] => True
  | items :: choices => SequenceReadable items ∧ ChoicesReadable choices

end

/-- A body that its text determines. -/
def Body.Readable (b : Body) : Prop := b.choices ≠ [] ∧ ChoicesReadable b.choices

theorem sequenceReadable_iff {items : List Item} :
    SequenceReadable items ↔ ∀ i ∈ items, i.Readable := by
  induction items with
  | nil => simp [SequenceReadable]
  | cons i items ih => simp [SequenceReadable, ih]

theorem choicesReadable_iff {choices : List (List Item)} :
    ChoicesReadable choices ↔ ∀ items ∈ choices, SequenceReadable items := by
  induction choices with
  | nil => simp [ChoicesReadable]
  | cons items choices ih => simp [ChoicesReadable, ih]

/-! ## Lexing piece by piece -/

namespace Lexer

theorem run_cons {mode : Mode} {c : Char} {text : List Char} {first : List Token × Mode}
    (h : step mode c = some first) :
    run mode (c :: text) = (run first.2 text).map fun rest => (first.1 ++ rest.1, rest.2) := by
  rw [run, h]
  cases hr : run first.2 text <;> simp [hr]

theorem run_append {mode : Mode} {xs ys : List Char} {first : List Token × Mode}
    (h : run mode xs = some first) :
    run mode (xs ++ ys) = (run first.2 ys).map fun rest => (first.1 ++ rest.1, rest.2) := by
  induction xs generalizing mode first with
  | nil =>
    obtain rfl : ([], mode) = first := by simpa [run] using h
    cases hr : run mode ys <;> simp [hr]
  | cons c xs ih =>
    cases hs : step mode c with
    | none => simp [run, hs] at h
    | some next =>
      rw [run_cons hs] at h
      obtain ⟨middle, hm, rfl⟩ := Option.map_eq_some_iff.mp h
      rw [List.cons_append, run_cons hs, ih hm]
      cases run middle.2 ys <;> simp

theorem tokens_eq_some_iff {text : List Char} {ts : List Token} :
    tokens text = some ts ↔ ∃ before mode ends, run .between text = some (before, mode) ∧
      finish mode = some ends ∧ before ++ ends = ts := by
  simp [tokens, Option.bind_eq_some_iff]

theorem tokens_of_run {xs : List Char} {ts : List Token}
    (h : run .between xs = some (ts, .between)) : tokens xs = some ts :=
  tokens_eq_some_iff.mpr ⟨ts, .between, [], h, rfl, by simp⟩

/-- A text that ends between two tokens is lexed apart from what follows it. -/
theorem tokens_append_of_run {xs ys : List Char} {ts us : List Token}
    (hx : run .between xs = some (ts, .between)) (hy : tokens ys = some us) :
    tokens (xs ++ ys) = some (ts ++ us) := by
  obtain ⟨before, mode, ends, hr, hf, rfl⟩ := tokens_eq_some_iff.mp hy
  refine tokens_eq_some_iff.mpr ⟨ts ++ before, mode, ends, ?_, hf, by simp⟩
  rw [run_append hx, hr]
  rfl

/-- The first character of `text`, if any, cannot go on with a name. -/
def Breaks (text : List Char) : Prop := ∀ c ∈ text.head?, isNameChar c = false

theorem breaks_cons {c : Char} (h : isNameChar c = false) (text : List Char) :
    Breaks (c :: text) := by
  simpa [Breaks] using h

/-- A text is lexed apart from what follows it, if that cannot go on with a name. -/
theorem tokens_append {xs ys : List Char} {ts us : List Token} (hx : tokens xs = some ts)
    (hy : tokens ys = some us) (hb : Breaks ys) : tokens (xs ++ ys) = some (ts ++ us) := by
  obtain ⟨before, mode, ends, hr, hf, rfl⟩ := tokens_eq_some_iff.mp hx
  cases mode with
  | between =>
    obtain rfl : [] = ends := by simpa [finish] using hf
    simpa using tokens_append_of_run hr hy
  | name text =>
    obtain rfl : [nameToken text] = ends := by simpa [finish] using hf
    cases ys with
    | nil =>
      obtain rfl : [] = us := by simpa [tokens, run, finish] using hy
      simpa using hx
    | cons c ys =>
      -- the name ends before `c`, which is then read as if it stood at the beginning
      obtain ⟨after, mode, ends, hr', hf', rfl⟩ := tokens_eq_some_iff.mp hy
      cases hs : start c with
      | none => simp [run, step, hs] at hr'
      | some next =>
        have hstep : step (.name text) c = some (nameToken text :: next.1, next.2) := by
          simp [step, hb c rfl, hs]
        rw [run_cons (show step .between c = some next from hs)] at hr'
        obtain ⟨rest, hrest, hre⟩ := Option.map_eq_some_iff.mp hr'
        obtain ⟨rfl, rfl⟩ := Prod.mk.inj hre
        refine tokens_eq_some_iff.mpr
          ⟨before ++ nameToken text :: (next.1 ++ rest.1), rest.2, ends, ?_, hf', by simp⟩
        rw [run_append hr, run_cons hstep, hrest]
        simp
  | quoted text escape => simp [finish] at hf
  | set text escape => simp [finish] at hf
  | counted text => simp [finish] at hf

/-! ### Literals, names and marks -/

/-- The characters of a literal, given what is before them, are collected up to its closing
quote: no character of the escaped text is an unescaped quote. -/
theorem run_quoted (before text : List Char) :
    run (.quoted before false) (text.flatMap literalChar) =
      some ([], .quoted (before ++ text.flatMap literalChar) false) := by
  induction text generalizing before with
  | nil => simp [run]
  | cons c text ih =>
    have collect : ∀ d, run (.quoted before false) ('\\' :: d :: text.flatMap literalChar) =
        some ([], .quoted (before ++ '\\' :: d :: text.flatMap literalChar) false) := by
      intro d
      have first : step (.quoted before false) '\\' =
          some ([], .quoted (before ++ ['\\']) true) := by simp [step]
      have second : step (.quoted (before ++ ['\\']) true) d =
          some ([], .quoted (before ++ ['\\'] ++ [d]) false) := by simp [step]
      rw [run_cons first, run_cons second, ih]
      simp
    rw [List.flatMap_cons, literalChar]
    split_ifs with h₁ h₂ h₃ h₄ h₅
    · exact collect '\\'
    · exact collect '"'
    · exact collect 't'
    · exact collect 'r'
    · exact collect 'n'
    · have plain : step (.quoted before false) c = some ([], .quoted (before ++ [c]) false) := by
        simp [step, h₁, h₂]
      rw [List.singleton_append, run_cons plain, ih]
      simp

/-- Undoing the escapes of a literal gives back its text. -/
theorem unescape_literal (text : List Char) :
    ∃ chars, unescape (text.flatMap literalChar) = some chars ∧ chars.map Prod.fst = text := by
  induction text with
  | nil => exact ⟨[], rfl, rfl⟩
  | cons c text ih =>
    obtain ⟨chars, hc, hm⟩ := ih
    rw [List.flatMap_cons, literalChar]
    split_ifs with h₁ h₂ h₃ h₄ h₅
    · exact ⟨(c, true) :: chars, by simp [unescape, escaped?, hc, h₁], by simp [hm]⟩
    · exact ⟨(c, true) :: chars, by simp [unescape, escaped?, hc, h₂], by simp [hm]⟩
    · exact ⟨(c, true) :: chars, by simp [unescape, escaped?, hc, h₃], by simp [hm]⟩
    · exact ⟨(c, true) :: chars, by simp [unescape, escaped?, hc, h₄], by simp [hm]⟩
    · exact ⟨(c, true) :: chars, by simp [unescape, escaped?, hc, h₅], by simp [hm]⟩
    · exact ⟨(c, false) :: chars, by simp [unescape, hc, h₁], by simp [hm]⟩

/-- **A quoted literal is read as its text.** -/
theorem run_quoteLiteral (text : String) :
    run .between (quoteLiteral text).toList =
      some ([.atom (.literal text .once)], .between) := by
  obtain ⟨chars, hc, hm⟩ := unescape_literal text.toList
  have opens : step .between '"' = some ([], .quoted [] false) := rfl
  have closes : step (.quoted (text.toList.flatMap literalChar) false) '"' =
      some ([.atom (.literal text .once)], .between) := by
    simp [step, hc, hm]
  rw [quoteLiteral, String.toList_ofList, List.cons_append, run_cons opens,
    run_append (run_quoted [] text.toList), List.nil_append, run_cons closes]
  rfl

theorem run_name (before text : List Char) (h : ∀ c ∈ text, isNameChar c) :
    run (.name before) text = some ([], .name (before ++ text)) := by
  induction text generalizing before with
  | nil => simp [run]
  | cons c text ih =>
    have hstep : step (.name before) c = some ([], .name (before ++ [c])) := by
      simp [step, h c List.mem_cons_self]
    rw [run_cons hstep, ih _ fun d hd => h d (List.mem_cons_of_mem c hd)]
    simp

theorem tokens_name {name : String} (h : IsName name) :
    tokens name.toList = some [.atom (.rule name .once)] := by
  obtain ⟨hne, hall⟩ := h
  cases hn : name.toList with
  | nil => exact absurd hn hne
  | cons c text =>
    rw [hn] at hall
    have hstep : step .between c = some ([], .name [c]) := by
      simp [step, start, hall c List.mem_cons_self]
    refine tokens_eq_some_iff.mpr ⟨[], .name (c :: text), [nameToken (c :: text)], ?_, rfl, ?_⟩
    · rw [run_cons hstep, run_name _ _ fun d hd => hall d (List.mem_cons_of_mem c hd)]
      rfl
    · rw [nameToken, ← hn, String.ofList_toList, List.nil_append]

theorem run_counted (before text : List Char) (h : '\x7d' ∉ text) :
    run (.counted before) text = some ([], .counted (before ++ text)) := by
  induction text generalizing before with
  | nil => simp [run]
  | cons c text ih =>
    obtain ⟨hc, ht⟩ := not_or.mp (List.mem_cons.not.mp h)
    have hstep : step (.counted before) c = some ([], .counted (before ++ [c])) := by
      simp [step, Ne.symm hc]
    rw [run_cons hstep, ih _ ht]
    simp

theorem isDigit_toDigits {n : Nat} {c : Char} (h : c ∈ Nat.toDigits 10 n) : c.isDigit = true :=
  Nat.isDigit_of_mem_toDigits (by decide) (by decide) h

theorem readNumber_toDigits (n : Nat) : readNumber (Nat.toDigits 10 n) = some n := by
  have hne : (Nat.toDigits 10 n).isEmpty = false := by simp
  have hall : (Nat.toDigits 10 n).all Char.isDigit = true :=
    List.all_eq_true.mpr fun c hc => isDigit_toDigits hc
  simp [readNumber, hne, hall]

/-- The digits at the beginning of a text are set apart up to the first other character. -/
theorem span_toDigits (n : Nat) (rest : List Char) (h : ∀ c ∈ rest.head?, c.isDigit = false) :
    (Nat.toDigits 10 n ++ rest).span Char.isDigit = (Nat.toDigits 10 n, rest) := by
  have hall : ∀ c ∈ Nat.toDigits 10 n, c.isDigit = true := fun c hc => isDigit_toDigits hc
  rw [List.span_eq_takeWhile_dropWhile, List.takeWhile_append_of_pos hall,
    List.dropWhile_append_of_pos hall]
  cases rest with
  | nil => simp
  | cons c rest => simp [h c rfl]

theorem readCount_exactly (n : Nat) : readCount (Nat.toDigits 10 n) = some (.exactly n) := by
  have hspan := span_toDigits n [] (by simp)
  rw [List.append_nil] at hspan
  rw [readCount, hspan]
  simp [readNumber_toDigits]

theorem readCount_atLeast (n : Nat) :
    readCount (Nat.toDigits 10 n ++ [',']) = some (.atLeast n) := by
  rw [readCount, span_toDigits n [','] (by simp)]
  simp [readNumber_toDigits]

theorem readCount_between (n m : Nat) :
    readCount (Nat.toDigits 10 n ++ ',' :: Nat.toDigits 10 m) = some (.between n m) := by
  rw [readCount, span_toDigits n (',' :: Nat.toDigits 10 m) (by simp)]
  have hm := readNumber_toDigits m
  cases hd : Nat.toDigits 10 m with
  | nil => exact absurd hd Nat.toDigits_ne_nil
  | cons c digits =>
    rw [hd] at hm
    simp [readNumber_toDigits, hm]

/-- A count between braces is read as a mark. -/
theorem run_braces {text : List Char} {count : Count} (h : '\x7d' ∉ text)
    (hc : readCount text = some count) :
    run .between ('\x7b' :: text ++ ['\x7d']) = some ([.mark count], .between) := by
  have opens : step .between '\x7b' = some ([], .counted []) := rfl
  have closes : step (.counted text) '\x7d' = some ([.mark count], .between) := by
    simp [step, hc]
  rw [List.cons_append, run_cons opens, run_append (run_counted [] text h), List.nil_append,
    run_cons closes]
  rfl

theorem brace_notMem_toDigits (n : Nat) : '\x7d' ∉ Nat.toDigits 10 n := fun h =>
  absurd (isDigit_toDigits h) (by decide)

theorem run_mark (count : Count) :
    run .between count.mark.toList = some (count.tokens, .between) := by
  cases count with
  | once => rfl
  | optional => rfl
  | many => rfl
  | some => rfl
  | exactly n =>
    simpa [Count.mark, Count.tokens] using
      run_braces (brace_notMem_toDigits n) (readCount_exactly n)
  | atLeast n =>
    have hb : '\x7d' ∉ Nat.toDigits 10 n ++ [','] := by simp [brace_notMem_toDigits]
    simpa [Count.mark, Count.tokens] using run_braces hb (readCount_atLeast n)
  | between n m =>
    have hb : '\x7d' ∉ Nat.toDigits 10 n ++ ',' :: Nat.toDigits 10 m := by
      simp [brace_notMem_toDigits]
    simpa [Count.mark, Count.tokens] using run_braces hb (readCount_between n m)

theorem breaks_mark (count : Count) (rest : List Char) (h : Breaks rest) :
    Breaks (count.mark.toList ++ rest) := by
  cases count <;> simp_all [Count.mark, Breaks, isNameChar]

end Lexer

/-! ### Expressions -/

/-- The characters of a list of pieces. -/
def spelled (pieces : List String) : List Char := pieces.flatMap String.toList

@[simp] theorem spelled_nil : spelled [] = [] := rfl

@[simp] theorem spelled_cons (piece : String) (pieces : List String) :
    spelled (piece :: pieces) = piece.toList ++ spelled pieces := rfl

@[simp] theorem spelled_append (pieces more : List String) :
    spelled (pieces ++ more) = spelled pieces ++ spelled more := List.flatMap_append

theorem Body.toList_text (b : Body) : b.text.toList = spelled (choicesPieces b.choices) :=
  String.toList_join

/-- A token that stands alone, and its mark. -/
theorem tokens_atom_mark {text : List Char} {t : Token} (h : Lexer.tokens text = some [t])
    (count : Count) : Lexer.tokens (text ++ count.mark.toList) = some (t :: count.tokens) := by
  have breaks : Lexer.Breaks count.mark.toList := by
    simpa using Lexer.breaks_mark count [] (by simp [Lexer.Breaks])
  exact Lexer.tokens_append h (Lexer.tokens_of_run (Lexer.run_mark count)) breaks

/-- The tokens between two brackets, and the mark after them. -/
theorem tokens_brackets (opening closing : List Char) {c : Char} {text : List Char}
    {ts : List Token} (hb : isNameChar c = false)
    (ho : Lexer.run .between opening = some ([.opening], .between))
    (hc : Lexer.run .between (c :: closing) = some ([.closing], .between))
    (h : Lexer.tokens text = some ts) (count : Count) :
    Lexer.tokens (opening ++ (text ++ (c :: closing ++ count.mark.toList))) =
      some (.opening :: (ts ++ .closing :: count.tokens)) := by
  have hend := Lexer.tokens_append_of_run hc (Lexer.tokens_of_run (Lexer.run_mark count))
  exact Lexer.tokens_append_of_run ho (Lexer.tokens_append h hend (Lexer.breaks_cons hb _))

theorem sequencePieces_cons_cons (i j : Item) (items : List Item) :
    sequencePieces (i :: j :: items) = i.pieces ++ " " :: sequencePieces (j :: items) := by
  rw [sequencePieces]
  exact List.cons_ne_nil _ _

theorem choicesPieces_cons_cons (items next : List Item) (choices : List (List Item)) :
    choicesPieces (items :: next :: choices) =
      sequencePieces items ++ " | " :: choicesPieces (next :: choices) := by
  rw [choicesPieces]
  exact List.cons_ne_nil _ _

theorem choicesTokens_cons_cons (items next : List Item) (choices : List (List Item)) :
    choicesTokens (items :: next :: choices) =
      sequenceTokens items ++ .bar :: choicesTokens (next :: choices) := by
  rw [choicesTokens]
  exact List.cons_ne_nil _ _

mutual

theorem Item.tokens_pieces :
    (i : Item) → i.Readable → Lexer.tokens (spelled i.pieces) = some i.tokens
  | .literal text count, _ => by
    simpa [Item.pieces, Item.tokens] using
      tokens_atom_mark (Lexer.tokens_of_run (Lexer.run_quoteLiteral text)) count
  | .chars set count, h => by
    rw [Item.Readable] at h
    simpa [Item.pieces, Item.tokens] using tokens_atom_mark (Lexer.tokens_of_run h) count
  | .rule name count, h => by
    rw [Item.Readable] at h
    simpa [Item.pieces, Item.tokens] using tokens_atom_mark (Lexer.tokens_name h) count
  | .group true choices count, h => by
    rw [Item.Readable] at h
    simpa [Item.pieces, Item.tokens] using
      tokens_brackets ['('] [] (c := ')') rfl rfl rfl (tokens_choicesPieces choices h.2) count
  | .group false choices count, h => by
    rw [Item.Readable] at h
    simpa [Item.pieces, Item.tokens] using
      tokens_brackets ['(', ' '] [')'] (c := ' ') rfl rfl rfl (tokens_choicesPieces choices h.2)
        count

theorem tokens_sequencePieces :
    (items : List Item) → SequenceReadable items →
      Lexer.tokens (spelled (sequencePieces items)) = some (sequenceTokens items)
  | [], _ => rfl
  | [i], h => by
    rw [SequenceReadable] at h
    simpa [sequencePieces, sequenceTokens] using Item.tokens_pieces i h.1
  | i :: j :: items, h => by
    rw [SequenceReadable] at h
    have hrest : Lexer.tokens ([' '] ++ spelled (sequencePieces (j :: items))) =
        some ([] ++ sequenceTokens (j :: items)) :=
      Lexer.tokens_append_of_run rfl (tokens_sequencePieces (j :: items) h.2)
    rw [sequenceTokens, sequencePieces_cons_cons]
    simpa using Lexer.tokens_append (Item.tokens_pieces i h.1) hrest (Lexer.breaks_cons rfl _)

theorem tokens_choicesPieces :
    (choices : List (List Item)) → ChoicesReadable choices →
      Lexer.tokens (spelled (choicesPieces choices)) = some (choicesTokens choices)
  | [], _ => rfl
  | [items], h => by
    rw [ChoicesReadable] at h
    simpa [choicesPieces, choicesTokens] using tokens_sequencePieces items h.1
  | items :: next :: choices, h => by
    rw [ChoicesReadable] at h
    have hrest : Lexer.tokens ([' ', '|', ' '] ++ spelled (choicesPieces (next :: choices))) =
        some ([.bar] ++ choicesTokens (next :: choices)) :=
      Lexer.tokens_append_of_run rfl (tokens_choicesPieces (next :: choices) h.2)
    rw [choicesTokens_cons_cons, choicesPieces_cons_cons]
    simpa using Lexer.tokens_append (tokens_sequencePieces items h.1) hrest (Lexer.breaks_cons rfl _)

end

/-! ## Nesting back

The reader does not tell a group whose brackets stand directly at its contents from one with
blanks inside, so an expression is read back with all its groups of the second kind. -/

mutual

/-- The item with blanks inside all its groups. -/
def Item.loosened : Item → Item
  | .group _ choices count => .group false (loosenedChoices choices) count
  | i => i

/-- The sequence with blanks inside all its groups. -/
def loosenedSequence : List Item → List Item
  | [] => []
  | i :: items => i.loosened :: loosenedSequence items

/-- The choices with blanks inside all their groups. -/
def loosenedChoices : List (List Item) → List (List Item)
  | [] => []
  | items :: choices => loosenedSequence items :: loosenedChoices choices

end

/-- The body with blanks inside all its groups. -/
def Body.loosened (b : Body) : Body := ⟨loosenedChoices b.choices⟩

mutual

theorem Item.language_loosened (env : String → Language Char) :
    (i : Item) → i.loosened.language env = i.language env
  | .literal text count => by rw [Item.loosened]; simp
  | .chars set count => by rw [Item.loosened]; simp
  | .rule name count => by rw [Item.loosened]; simp
  | .group tight choices count => by
    rw [Item.loosened, Item.language, Item.language, choicesLanguage_loosened env choices]

theorem sequenceLanguage_loosened (env : String → Language Char) :
    (items : List Item) → sequenceLanguage env (loosenedSequence items) = sequenceLanguage env items
  | [] => rfl
  | i :: items => by
    rw [loosenedSequence, sequenceLanguage, sequenceLanguage, Item.language_loosened env i,
      sequenceLanguage_loosened env items]

theorem choicesLanguage_loosened (env : String → Language Char) :
    (choices : List (List Item)) →
      choicesLanguage env (loosenedChoices choices) = choicesLanguage env choices
  | [] => rfl
  | items :: choices => by
    rw [loosenedChoices, choicesLanguage, choicesLanguage, sequenceLanguage_loosened env items,
      choicesLanguage_loosened env choices]

end

theorem Body.language_loosened (env : String → Language Char) (b : Body) :
    b.loosened.language env = b.language env :=
  choicesLanguage_loosened env b.choices

/-- An item without a count, and then its mark. -/
theorem foldlM_count (f : Frame) (outer : List Frame) {i : Item} {count : Count}
    (h : i.count = .once) :
    count.tokens.foldlM parseStep (f.push i :: outer) = some (f.push (i.marked count) :: outer) := by
  have hm : i.marked .once = i := by
    cases i <;> simp_all [Item.count, Item.marked]
  cases count <;> simp [Count.tokens, parseStep, Frame.push, hm]

mutual

theorem Item.foldlM_tokens (f : Frame) (outer : List Frame) :
    (i : Item) → i.Readable →
      i.tokens.foldlM parseStep (f :: outer) = some (f.push i.loosened :: outer)
  | .literal text count, _ => by
    rw [Item.tokens, List.foldlM_cons]
    exact foldlM_count f outer rfl
  | .chars set count, _ => by
    rw [Item.tokens, List.foldlM_cons]
    exact foldlM_count f outer rfl
  | .rule name count, _ => by
    rw [Item.tokens, List.foldlM_cons]
    exact foldlM_count f outer rfl
  | .group tight choices count, h => by
    rw [Item.Readable] at h
    obtain ⟨g, hg, hall⟩ := foldlM_choicesTokens {} (f :: outer) rfl choices h.1 h.2
    rw [Item.tokens, List.foldlM_cons, Item.loosened]
    simp only [parseStep, Option.bind_eq_bind, Option.bind_some]
    rw [List.foldlM_append, hg]
    simp only [Option.bind_eq_bind, Option.bind_some, List.foldlM_cons, parseStep, hall]
    exact foldlM_count f outer rfl

theorem foldlM_sequenceTokens (f : Frame) (outer : List Frame) :
    (items : List Item) → SequenceReadable items →
      (sequenceTokens items).foldlM parseStep (f :: outer) =
        some ({ f with items := f.items ++ loosenedSequence items } :: outer)
  | [], _ => by simp [sequenceTokens, loosenedSequence]
  | i :: items, h => by
    rw [SequenceReadable] at h
    rw [sequenceTokens, List.foldlM_append, Item.foldlM_tokens f outer i h.1, loosenedSequence]
    simp only [Option.bind_eq_bind, Option.bind_some]
    rw [foldlM_sequenceTokens (f.push i.loosened) outer items h.2]
    simp [Frame.push]

theorem foldlM_choicesTokens (f : Frame) (outer : List Frame) (hf : f.items = []) :
    (choices : List (List Item)) → choices ≠ [] → ChoicesReadable choices →
      ∃ g : Frame, (choicesTokens choices).foldlM parseStep (f :: outer) = some (g :: outer) ∧
        g.all = f.choices ++ loosenedChoices choices
  | [], hne, _ => absurd rfl hne
  | [items], _, h => by
    rw [ChoicesReadable] at h
    refine ⟨_, foldlM_sequenceTokens f outer items h.1, ?_⟩
    simp [Frame.all, hf, loosenedChoices]
  | items :: next :: choices, _, h => by
    rw [ChoicesReadable] at h
    obtain ⟨g, hg, hall⟩ := foldlM_choicesTokens { choices := f.choices ++ [loosenedSequence items] }
      outer rfl (next :: choices) (List.cons_ne_nil _ _) h.2
    refine ⟨g, ?_, by simp [hall, loosenedChoices]⟩
    rw [choicesTokens_cons_cons, List.foldlM_append, foldlM_sequenceTokens f outer items h.1]
    simp only [Option.bind_eq_bind, Option.bind_some, List.foldlM_cons, parseStep, Frame.all, hf,
      List.nil_append]
    exact hg

end

/-- **Reading is a left inverse of writing**, up to the brackets of groups. -/
theorem readBody_text {b : Body} (h : b.Readable) : readBody b.text.toList = some b.loosened := by
  obtain ⟨g, hg, hall⟩ := foldlM_choicesTokens {} [] rfl b.choices h.1 h.2
  rw [readBody, b.toList_text, tokens_choicesPieces b.choices h.2]
  simp only [Option.bind_eq_bind, Option.bind_some, parse, hg, Body.loosened]
  rw [hall]
  rfl

/-- **Bodies of equal text have equal languages.** -/
theorem Body.language_congr {a b : Body} (ha : a.Readable) (hb : b.Readable)
    (h : a.text = b.text) (env : String → Language Char) : a.language env = b.language env := by
  have hl : some a.loosened = some b.loosened := by
    rw [← readBody_text ha, ← readBody_text hb, h]
  rw [← a.language_loosened, Option.some.inj hl, b.language_loosened]

/-! ## Grammars

A line break never stands inside a rule, so the lines of a grammar text are its rules. -/

theorem notMem_quoteLiteral (text : String) {c : Char} (hc : c ∈ ['\n', '\t', '\r']) :
    c ∉ (quoteLiteral text).toList := by
  have inner : ∀ d, c ∉ literalChar d := by
    intro d
    rw [literalChar]
    split_ifs with h₁ h₂ h₃ h₄ h₅ <;> rintro hd <;> simp at hc hd <;> grind
  have hquote : c ≠ '"' := by
    rintro rfl
    exact absurd hc (by decide)
  simp [quoteLiteral, List.mem_flatMap, inner, hquote]

theorem newLine_notMem_classChar (c : Char) : '\n' ∉ (classChar c).toList := by
  have digits : ∀ k < 16, '\n' ≠ (Nat.digitChar k).toUpper := by decide
  rw [classChar]
  split_ifs with h₁ h₂ h₃
  · decide
  · decide
  · have hlow : c.toNat / 16 < 16 := by
      simp only [Bool.or_eq_true, decide_eq_true_eq] at h₃
      omega
    simp [digits _ hlow, digits _ (Nat.mod_lt _ (by decide))]
  · simpa [eq_comm] using h₂

theorem newLine_notMem_class (set : CharClass) : '\n' ∉ set.text.toList := by
  have entry : ∀ e : ClassEntry, '\n' ∉ e.text.toList := by
    intro e
    cases e <;> simp [ClassEntry.text, newLine_notMem_classChar]
  cases hn : set.negated <;> simp [CharClass.text, hn, String.toList_join, entry]

theorem newLine_notMem_mark (count : Count) : '\n' ∉ count.mark.toList := by
  have digits : ∀ n, '\n' ∉ Nat.toDigits 10 n := fun n h =>
    absurd (Lexer.isDigit_toDigits h) (by decide)
  cases count <;> simp [Count.mark, digits]

theorem newLine_notMem_name {name : String} (h : IsName name) : '\n' ∉ name.toList := fun hm =>
  absurd (h.2 _ hm) (by decide)

mutual

theorem Item.newLine_notMem :
    (i : Item) → i.Readable → '\n' ∉ spelled i.pieces
  | .literal text count, _ => by
    simp [Item.pieces, notMem_quoteLiteral, newLine_notMem_mark]
  | .chars set count, _ => by simp [Item.pieces, newLine_notMem_class, newLine_notMem_mark]
  | .rule name count, h => by
    rw [Item.Readable] at h
    simp [Item.pieces, newLine_notMem_name h, newLine_notMem_mark]
  | .group true choices count, h => by
    rw [Item.Readable] at h
    simp [Item.pieces, choices_newLine_notMem choices h.2, newLine_notMem_mark]
  | .group false choices count, h => by
    rw [Item.Readable] at h
    simp [Item.pieces, choices_newLine_notMem choices h.2, newLine_notMem_mark]

theorem sequence_newLine_notMem :
    (items : List Item) → SequenceReadable items → '\n' ∉ spelled (sequencePieces items)
  | [], _ => by simp [sequencePieces]
  | [i], h => by
    rw [SequenceReadable] at h
    simpa [sequencePieces] using Item.newLine_notMem i h.1
  | i :: j :: items, h => by
    rw [SequenceReadable] at h
    simp [sequencePieces_cons_cons, Item.newLine_notMem i h.1,
      sequence_newLine_notMem (j :: items) h.2]

theorem choices_newLine_notMem :
    (choices : List (List Item)) → ChoicesReadable choices → '\n' ∉ spelled (choicesPieces choices)
  | [], _ => by simp [choicesPieces]
  | [items], h => by
    rw [ChoicesReadable] at h
    simpa [choicesPieces] using sequence_newLine_notMem items h.1
  | items :: next :: choices, h => by
    rw [ChoicesReadable] at h
    simp [choicesPieces_cons_cons, sequence_newLine_notMem items h.1,
      choices_newLine_notMem (next :: choices) h.2]

end

/-- A line that a rule is written on is read as that rule. -/
theorem readRule_ruleText {name : String} {body : Body} (hn : IsName name) (hb : body.Readable) :
    readRule (Emitter.ruleText name body).toList = some (name, body.loosened) := by
  have hspan : (name.toList ++ (" ::= ".toList ++ body.text.toList)).span isNameChar =
      (name.toList, " ::= ".toList ++ body.text.toList) := by
    rw [List.span_eq_takeWhile_dropWhile, List.takeWhile_append_of_pos hn.2,
      List.dropWhile_append_of_pos hn.2]
    simp [isNameChar]
  have htext : (Emitter.ruleText name body).toList =
      name.toList ++ (" ::= ".toList ++ body.text.toList) := by
    simp [Emitter.ruleText]
  rw [htext, readRule, hspan]
  cases hc : name.toList with
  | nil => exact absurd hc hn.1
  | cons c rest =>
    have hname : String.ofList (c :: rest) = name := by rw [← hc, String.ofList_toList]
    simp [readBody_text hb, hname]

/-- The rules of a grammar with blanks inside all groups. -/
def loosenedRules (rules : Assoc Body) : Assoc Body := rules.map fun r => (r.1, r.2.loosened)

theorem get?_loosenedRules (rules : Assoc Body) (name : String) :
    (loosenedRules rules).get? name = (rules.get? name).map Body.loosened := by
  induction rules with
  | nil => rfl
  | cons r rules ih =>
    by_cases h : r.1 = name
    · simp [loosenedRules, Assoc.get?, h]
    · simpa [loosenedRules, Assoc.get?, h] using ih

theorem derivable_loosenedRules (rules : Assoc Body) :
    derivable (loosenedRules rules) = derivable rules := by
  have hstep : ∀ env name, ruleStep (loosenedRules rules) env name = ruleStep rules env name := by
    intro env name
    rw [ruleStep, ruleStep, get?_loosenedRules]
    cases rules.get? name with
    | none => rfl
    | some body => exact body.language_loosened env
  have hop : ruleOperator (loosenedRules rules) = ruleOperator rules :=
    OrderHom.ext _ _ (funext fun env => funext fun name => hstep env name)
  rw [derivable_eq_lfp, derivable_eq_lfp, hop]

/-- The text of a list of rules, one a line. -/
def rulesText (rules : Assoc Body) : String :=
  "\n".intercalate (rules.map fun r => Emitter.ruleText r.1 r.2)

/-- The lines of the text are the rules. -/
theorem splitOn_rulesText {rules : Assoc Body} (hne : rules ≠ [])
    (hr : ∀ r ∈ rules, IsName r.1 ∧ r.2.Readable) :
    (rulesText rules).toList.splitOn '\n' =
      rules.map fun r => (Emitter.ruleText r.1 r.2).toList := by
  have hline : ∀ line ∈ rules.map (fun r => (Emitter.ruleText r.1 r.2).toList), '\n' ∉ line := by
    intro line hmem
    obtain ⟨r, hmr, rfl⟩ := List.mem_map.mp hmem
    have hb := choices_newLine_notMem r.2.choices (hr r hmr).2.2
    rw [← Body.toList_text] at hb
    simp [Emitter.ruleText, newLine_notMem_name (hr r hmr).1, hb]
  have hnl : "\n".toList = ['\n'] := rfl
  rw [rulesText, String.toList_intercalate, hnl, List.map_map]
  exact List.splitOn_intercalate '\n' hline (by simpa using hne)

@[simp] theorem keys_loosenedRules (rules : Assoc Body) :
    Assoc.keys (loosenedRules rules) = Assoc.keys rules := by
  simp [Assoc.keys, loosenedRules]

/-- **A grammar is read back from its text.** -/
theorem readGrammar_rulesText {rules : Assoc Body} (hne : rules ≠ [])
    (hr : ∀ r ∈ rules, IsName r.1 ∧ r.2.Readable) (hd : (Assoc.keys rules).Nodup) :
    readGrammar (rulesText rules) = some (loosenedRules rules) := by
  have hread : (rules.map fun r => (Emitter.ruleText r.1 r.2).toList).mapM readRule =
      some (loosenedRules rules) := by
    clear hd hne
    induction rules with
    | nil => rfl
    | cons r rules ih =>
      have hhead := hr r List.mem_cons_self
      rw [List.map_cons, List.mapM_cons, readRule_ruleText hhead.1 hhead.2,
        ih fun x hx => hr x (List.mem_cons_of_mem r hx)]
      rfl
  rw [readGrammar, splitOn_rulesText hne hr, hread]
  simp [hd]

/-- **What a written grammar accepts is what its rules derive.** -/
theorem accepts_iff_derivable {rules : Assoc Body} (hne : rules ≠ [])
    (hr : ∀ r ∈ rules, IsName r.1 ∧ r.2.Readable) (hd : (Assoc.keys rules).Nodup) (text : String) :
    Accepts (rulesText rules) text ↔ text.toList ∈ derivable rules "root" := by
  rw [Accepts, readGrammar_rulesText hne hr hd, ← derivable_loosenedRules rules]
  simp

end Grammar

end SchemaGrammar
