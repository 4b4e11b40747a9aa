import SchemaGrammar.Proofs.CheckingEnds
import SchemaGrammar.Proofs.RuleNames

/-!
# The places of failures

A check that fails says where. The place is in the value: each step of the path goes to a member or
an item that is there. And the text of a path names one place only, whatever the member names are.
A plain name ends before the next dot or bracket, a quoted one at the first quote without a
backslash before it, and a position at its bracket, so the steps can be told one after the other.

## Main definitions

* `Json.Value.Holds`: what a value holds at a place.

## Main results

* `Path.text_injective`: paths with one text are the same.
* `failure_names_place`: a failure names one place, and there is a value at it.
-/

namespace SchemaGrammar

open Json (Value)

/-- What a value holds at a place. -/
inductive Json.Value.Holds (root : Value) : Path → Value → Prop where
  | root : root.Holds [] root
  | item {path values v} {i : Nat} : root.Holds path (.array values) → values[i]? = some v →
    root.Holds (.index i :: path) v
  | member {path members key v} : root.Holds path (.object members) → (key, v) ∈ members →
    root.Holds (.key key :: path) v

/-- Whatever is wrong with a value, its place is reported. -/
theorem Checking.keepsValues_holds (root : Value) :
    Checking.KeepsValues (fun failure => ∃ found, root.Holds failure.path found)
      (fun value path => root.Holds path value) where
  error h _ := ⟨_, h⟩
  item h hv := h.item hv
  member h hm := h.member hm

/-- A value is at the place of each failure. -/
theorem exists_holds_of_validate {s : Schema} {external : Assoc Schema} {value : Value}
    {failure : Failure} (h : validate s external value = .error failure) :
    ∃ found, value.Holds failure.path found :=
  (Checking.inStep_fold_guard (Checking.keepsValues_holds value) (fun h => ⟨_, h⟩) [] _ s []
    (Scope.ofExternal external) .root _ _ ⟨rfl, rfl, trivial⟩).errors failure h

/-! ## Texts that can be told apart -/

/-- Words that are told apart from what follows them are read off one after the other. `R` is what
can follow a word and `E` what can follow the last one. -/
theorem flatMap_append_inj {α β : Type} {word : α → List β} {R E : List β → Prop}
    (hE : ∀ rest, E rest → R rest) (hnext : ∀ a rest, R (word a ++ rest))
    (hend : ∀ a rest, ¬ E (word a ++ rest))
    (hword : ∀ a b rest rest', R rest → R rest' → word a ++ rest = word b ++ rest' →
      a = b ∧ rest = rest')
    {as bs : List α} {rest rest' : List β} (hrest : E rest) (hrest' : E rest')
    (h : as.flatMap word ++ rest = bs.flatMap word ++ rest') : as = bs ∧ rest = rest' := by
  have hfollow : ∀ (as : List α) {rest}, E rest → R (as.flatMap word ++ rest) := by
    intro as rest hrest
    cases as with
    | nil => exact hE _ hrest
    | cons a as =>
      rw [List.flatMap_cons, List.append_assoc]
      exact hnext a _
  induction as generalizing bs with
  | nil =>
    cases bs with
    | nil => exact ⟨rfl, h⟩
    | cons b bs =>
      rw [List.flatMap_nil, List.nil_append, List.flatMap_cons, List.append_assoc] at h
      exact absurd (h ▸ hrest) (hend b _)
  | cons a as ih =>
    rw [List.flatMap_cons, List.append_assoc] at h
    cases bs with
    | nil =>
      rw [List.flatMap_nil, List.nil_append] at h
      exact absurd (h ▸ hrest') (hend a _)
    | cons b bs =>
      rw [List.flatMap_cons, List.append_assoc] at h
      obtain ⟨rfl, htail⟩ := hword a b _ _ (hfollow as hrest) (hfollow bs hrest') h
      obtain ⟨rfl, rfl⟩ := ih htail
      exact ⟨rfl, rfl⟩

/-- A word of some kind of characters is told apart from what follows it by the first character
of another kind. -/
theorem append_inj_of_forall {p : Char → Bool} {word word' rest rest' : List Char}
    (hword : ∀ c ∈ word, p c = true) (hword' : ∀ c ∈ word', p c = true)
    (hrest : rest.takeWhile p = []) (hrest' : rest'.takeWhile p = [])
    (h : word ++ rest = word' ++ rest') : word = word' ∧ rest = rest' := by
  have htake := congrArg (List.takeWhile p) h
  rw [List.takeWhile_append_of_pos hword, List.takeWhile_append_of_pos hword', hrest, hrest',
    List.append_nil, List.append_nil] at htake
  subst htake
  exact ⟨rfl, List.append_cancel_left h⟩

/-! ## Quoted names -/

namespace Text

/-- The number that digits of base sixteen say. -/
def hexNumber (digits : List Char) : Nat :=
  digits.foldl (fun n c => 16 * n + (Json.hexValue? c).getD 0) 0

theorem hexNumber_toDigits (n : Nat) :
    hexNumber (Nat.toDigits 16 n) = n ∧ '\x7d' ∉ Nat.toDigits 16 n := by
  have hdigit : ∀ d < 16, (Json.hexValue? (Nat.digitChar d)).getD 0 = d ∧
      '\x7d' ≠ Nat.digitChar d := by decide
  induction n using Nat.strongRecOn with
  | ind n ih =>
    rcases Nat.lt_or_ge n 16 with hlt | hge
    · rw [Nat.toDigits_of_lt_base hlt]
      simpa [hexNumber] using hdigit n hlt
    · obtain ⟨hvalue, hmem⟩ := ih (n / 16) (Nat.div_lt_self (by omega) (by decide))
      obtain ⟨hlast, hne⟩ := hdigit (n % 16) (Nat.mod_lt n (by decide))
      rw [Nat.toDigits_of_base_le (by decide) hge]
      refine ⟨?_, by simp [hmem, hne]⟩
      rw [hexNumber] at hvalue ⊢
      rw [List.foldl_append, hvalue, List.foldl_cons, List.foldl_nil, hlast]
      exact Nat.div_add_mod n 16

/-- What a character after a backslash stands for. -/
def shownEscape : Char → Char
  | 't' => '\t'
  | 'r' => '\r'
  | 'n' => '\n'
  | '0' => '\x00'
  | c => c

/-- Reads one character of a quoted text, and leaves what comes after it. -/
def readShown : List Char → Option (Char × List Char)
  | [] => none
  | '\\' :: 'u' :: '\x7b' :: rest =>
    some (Char.ofNat (hexNumber (rest.takeWhile (· != '\x7d'))),
      (rest.dropWhile (· != '\x7d')).tail)
  | '\\' :: c :: rest => some (shownEscape c, rest)
  | c :: rest => some (c, rest)

theorem readShown_quotedChar (c : Char) (rest : List Char) :
    readShown ((quotedChar c).toList ++ rest) = some (c, rest) := by
  unfold quotedChar
  split_ifs with hquote hback htab hreturn hline hnull hshown
  · subst hquote; rfl
  · subst hback; rfl
  · subst htab; rfl
  · subst hreturn; rfl
  · subst hline; rfl
  · subst hnull; rfl
  · obtain ⟨hvalue, hmem⟩ := hexNumber_toDigits c.toNat
    have hall : ∀ d ∈ Nat.toDigits 16 c.toNat, (d != '\x7d') = true := fun d hd => by
      rw [bne_iff_ne]
      rintro rfl
      exact hmem hd
    simp [hexDigits, readShown, List.takeWhile_append_of_pos hall,
      List.dropWhile_append_of_pos hall, hvalue]
  · rw [Char.toString_eq_singleton, String.toList_singleton, List.singleton_append, readShown] <;>
      simp_all

theorem toList_quoted (text : String) :
    (quoted text).toList =
      '"' :: text.toList.flatMap (fun c => (quotedChar c).toList) ++ ['"'] := by
  simp [quoted, List.flatMap_def, Function.comp_def]

/-- A quoted text shows where it ends. -/
theorem quoted_append_inj {text text' : String} {rest rest' : List Char}
    (h : (quoted text).toList ++ rest = (quoted text').toList ++ rest') :
    text = text' ∧ rest = rest' := by
  have hquote : ∀ c rest, ((quotedChar c).toList ++ rest).head? ≠ some '"' := by
    intro c rest
    unfold quotedChar
    split_ifs <;> simp_all
  rw [toList_quoted, toList_quoted] at h
  simp only [List.cons_append, List.append_assoc, List.cons.injEq, true_and] at h
  obtain ⟨htext, hrest⟩ := flatMap_append_inj (R := fun _ => True) (E := (·.head? = some '"'))
    (fun _ _ => trivial) (fun _ _ => trivial) hquote (fun c d rest rest' _ _ h => by
      have hread := congrArg readShown h
      rw [readShown_quotedChar, readShown_quotedChar] at hread
      simpa using hread) rfl rfl h
  exact ⟨String.toList_inj.mp htext, by simpa using hrest⟩

end Text

/-! ## Paths -/

/-- Whether a character can stand in a name without quotes. -/
def isWordChar (c : Char) : Bool := c.isAlphanum || c = '_'

/-- What can follow a step: another one, or nothing. -/
def PathStep.Follows (rest : List Char) : Prop := rest.takeWhile isWordChar = []

/-- How a step is written: the characters between its first one and its last one tell the three
kinds apart. -/
theorem PathStep.toList_text (step : PathStep) :
    (∃ name, step = .key name ∧ (∀ c ∈ name.toList, isWordChar c = true) ∧
      step.text.toList = '.' :: name.toList) ∨
    (∃ name, step = .key name ∧ step.text.toList = '[' :: (Text.quoted name).toList ++ [']']) ∨
    ∃ i, step = .index i ∧ step.text.toList = '[' :: numeral i ++ [']'] := by
  cases step with
  | key name =>
    by_cases hplain : isPlainKey name
    · refine .inl ⟨name, rfl, ?_, by simp [PathStep.text, hplain]⟩
      simp only [isPlainKey, Bool.and_eq_true, List.all_eq_true] at hplain
      exact hplain.2
    · exact .inr (.inl ⟨name, rfl, by simp [PathStep.text, hplain]⟩)
  | index i =>
    exact .inr (.inr ⟨i, rfl, by simp [PathStep.text, numeral]⟩)

theorem PathStep.follows_text (step : PathStep) (rest : List Char) :
    Follows (step.text.toList ++ rest) := by
  rcases step.toList_text with ⟨name, -, -, htext⟩ | ⟨name, -, htext⟩ | ⟨i, -, htext⟩ <;>
    rw [htext] <;> rfl

/-- A step is told apart from those that follow it. -/
theorem PathStep.text_append_inj (a b : PathStep) (rest rest' : List Char) (hrest : Follows rest)
    (hrest' : Follows rest') (h : a.text.toList ++ rest = b.text.toList ++ rest') :
    a = b ∧ rest = rest' := by
  have hnumeral : ∀ i name rest rest',
      numeral i ++ ']' :: rest ≠ (Text.quoted name).toList ++ rest' := by
    intro i name rest rest' h
    have hquote : '"' ∈ numeral i ∨ '"' = ']' := by
      rw [Text.toList_quoted, List.cons_append] at h
      cases hn : numeral i <;> simp_all
    rcases hquote with hmem | heq
    · exact absurd (isDigit_of_mem_numeral hmem) (by decide)
    · exact absurd heq (by decide)
  rcases a.toList_text with ⟨n, rfl, hn, ha⟩ | ⟨n, rfl, ha⟩ | ⟨i, rfl, ha⟩ <;>
    rcases b.toList_text with ⟨m, rfl, hm, hb⟩ | ⟨m, rfl, hb⟩ | ⟨j, rfl, hb⟩ <;>
    rw [ha, hb] at h <;>
    simp only [List.cons_append, List.append_assoc, List.cons.injEq, true_and, List.nil_append,
      Char.reduceEq, false_and] at h
  · obtain ⟨hname, hrest⟩ := append_inj_of_forall hn hm hrest hrest' h
    exact ⟨congrArg PathStep.key (String.toList_inj.mp hname), hrest⟩
  · obtain ⟨rfl, hrest⟩ := Text.quoted_append_inj h
    exact ⟨rfl, by simpa using hrest⟩
  · exact absurd h.symm (hnumeral j n _ _)
  · exact absurd h (hnumeral i m _ _)
  · have hdigits : ∀ (k : Nat), ∀ c ∈ numeral k, c.isDigit = true := fun _ _ =>
      isDigit_of_mem_numeral
    obtain ⟨hnum, hrest⟩ := append_inj_of_forall (hdigits i) (hdigits j) rfl rfl h
    exact ⟨congrArg PathStep.index (numeral_inj hnum), by simpa using hrest⟩

theorem Path.toList_text (path : Path) :
    path.text.toList = '$' :: path.reverse.flatMap fun step => step.text.toList := by
  induction path with
  | nil => rfl
  | cons step outer ih => simp [Path.text, ih]

/-- **A text names one path.** -/
theorem Path.text_injective : Function.Injective Path.text := by
  intro path path' h
  have h := congrArg String.toList h
  rw [Path.toList_text, Path.toList_text, List.cons.injEq] at h
  have hend : ∀ (step : PathStep) rest, step.text.toList ++ rest ≠ [] := by
    intro step rest
    rcases step.toList_text with ⟨_, -, -, ht⟩ | ⟨_, -, ht⟩ | ⟨_, -, ht⟩ <;> simp [ht]
  obtain ⟨hreverse, -⟩ := flatMap_append_inj (E := (· = [])) (fun _ hnil => hnil ▸ rfl)
    PathStep.follows_text hend PathStep.text_append_inj rfl rfl (congrArg (· ++ []) h.2)
  exact List.reverse_injective hreverse

/-- **A failure names one place in the value.** If a check fails, the text of its path is that of
just one path, and the value holds something there. Different paths have different texts, whatever
the member names are made of. -/
theorem failure_names_place :
    (∀ (s : Schema) (external : Assoc Schema) (value : Value) (failure : Failure),
      validate s external value = .error failure →
      ∃! path, path.text = failure.path.text ∧ ∃ found, value.Holds path found) ∧
    Function.Injective Path.text := by
  refine ⟨fun s external value failure h => ?_, Path.text_injective⟩
  exact ⟨failure.path, ⟨rfl, exists_holds_of_validate h⟩,
    fun path hpath => Path.text_injective hpath.1⟩

/-- Lists of words under a name with a dot. -/
def dottedSchema : Schema where
  types := some (.one .object)
  properties := some [("a.b", { types := some (.one .array),
                                items := some { types := some (.one .string) } })]

/-- The second item is no word. -/
def dottedDocument : Value := .object [("a.b", .array [.string "x", .number (.integer 1)])]

/-- The name with a dot is quoted, so the place is not one of a member `b` of a member `a`. -/
theorem failure_names_place_dottedDocument :
    ∃ failure, validate dottedSchema [] dottedDocument = .error failure ∧
      failure.path.text = "$[\"a.b\"][1]" ∧
      ∃! path, path.text = "$[\"a.b\"][1]" ∧ ∃ found, dottedDocument.Holds path found := by
  have hfails : validate dottedSchema [] dottedDocument =
      .error ⟨[.index 1, .key "a.b"], .wrongType .string .number⟩ := rfl
  have htext : Path.text [.index 1, .key "a.b"] = "$[\"a.b\"][1]" := by cbv
  exact ⟨_, hfails, htext, htext ▸ failure_names_place.1 _ _ _ _ hfails⟩

end SchemaGrammar
