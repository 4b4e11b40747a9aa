import SchemaGrammar.Proofs.ReadingObjects

/-!
# Quoting of literals

A literal is written by escaping one kind of character after the other. The backslash comes first,
so no pass touches a backslash that an earlier one has brought in, and all passes together escape
each character on its own. What is written is read back from its first quote to its last one,
whatever comes after it.

## Main definitions

* `Grammar.readLiteral`: reads a literal and leaves what comes after it.
* `Grammar.escapePasses`: what is escaped, in the order of the passes.

## Main results

* `Grammar.readLiteral_quoteLiteral`: a literal is read back, and nothing after it is touched.
* `Grammar.quoteLiteral_lossless`: quoting loses nothing and shows where it ends.
-/

namespace SchemaGrammar

namespace Grammar

/-- What an escape in a literal stands for. -/
def literalEscape? : Char → Option Char
  | '\\' => some '\\'
  | '"' => some '"'
  | 't' => some '\t'
  | 'r' => some '\r'
  | 'n' => some '\n'
  | _ => none

/-- Reads up to the quote that closes a literal: the text before it, and what comes after it. -/
def readQuoted : List Char → Option (List Char × List Char)
  | [] | ['\\'] => none
  | '"' :: rest => some ([], rest)
  | '\\' :: c :: rest =>
    (literalEscape? c).bind fun char => (readQuoted rest).map (Prod.map (char :: ·) id)
  | c :: rest => (readQuoted rest).map (Prod.map (c :: ·) id)

/-- Reads a literal: its text, and what comes after it. -/
def readLiteral : List Char → Option (String × List Char)
  | '"' :: rest => (readQuoted rest).map (Prod.map String.ofList id)
  | _ => none

/-- The text with each character that a pass is about replaced. -/
def replaceEach (text : List Char) (pass : Char × List Char) : List Char :=
  text.flatMap fun c => if c = pass.1 then pass.2 else [c]

/-- What is escaped in a literal, and how, in the order of the passes. -/
def escapePasses : List (Char × List Char) :=
  [('\\', ['\\', '\\']), ('"', ['\\', '"']), ('\t', ['\\', 't']), ('\r', ['\\', 'r']),
    ('\n', ['\\', 'n'])]

/-- All passes together escape each character on its own. -/
theorem foldl_replaceEach (text : List Char) :
    escapePasses.foldl replaceEach text = text.flatMap literalChar := by
  simp only [escapePasses, List.foldl_cons, List.foldl_nil, replaceEach, List.flatMap_assoc]
  refine congrArg (List.flatMap · text) (funext fun c => ?_)
  unfold literalChar
  split_ifs <;> simp_all

/-! ## Reading back -/

theorem readQuoted_literalChar (c : Char) (rest : List Char) :
    readQuoted (literalChar c ++ rest) = (readQuoted rest).map (Prod.map (c :: ·) id) := by
  unfold literalChar
  split_ifs with hback hquote htab hreturn hline
  · subst hback; rfl
  · subst hquote; rfl
  · subst htab; rfl
  · subst hreturn; rfl
  · subst hline; rfl
  · rw [List.singleton_append, readQuoted] <;> simp_all

theorem readQuoted_flatMap (text rest : List Char) :
    readQuoted (text.flatMap literalChar ++ '"' :: rest) = some (text, rest) := by
  induction text with
  | nil => rfl
  | cons c text ih =>
    rw [List.flatMap_cons, List.append_assoc, readQuoted_literalChar, ih]
    rfl

/-- **A literal is read back**, and nothing after it is touched. -/
theorem readLiteral_quoteLiteral (text : String) (rest : List Char) :
    readLiteral ((quoteLiteral text).toList ++ rest) = some (text, rest) := by
  rw [quoteLiteral, String.toList_ofList, List.cons_append, List.cons_append, List.append_assoc]
  simp [readLiteral, readQuoted_flatMap]

/-- What comes after a text is left when the text is read. -/
theorem readQuoted_append {text read left : List Char} (h : readQuoted text = some (read, left))
    (rest : List Char) : readQuoted (text ++ rest) = some (read, left ++ rest) := by
  induction text using readQuoted.induct generalizing read left with
  | case1 => cases h
  | case2 => cases h
  | case3 text => cases h; rfl
  | case4 c text ih =>
    obtain ⟨char, hchar, h⟩ := Option.bind_eq_some_iff.mp h
    obtain ⟨⟨read, left⟩, hread, ⟨⟩⟩ := Option.map_eq_some_iff.mp h
    simp [readQuoted, hchar, ih hread]
  | case5 c text hlast hquote hback ih =>
    have hne : c ≠ '\\' := by
      rintro rfl
      cases text with
      | nil => exact hlast rfl rfl
      | cons d text => exact hback d text rfl rfl
    rw [readQuoted] at h
    · obtain ⟨⟨read, left⟩, hread, ⟨⟩⟩ := Option.map_eq_some_iff.mp h
      rw [List.cons_append, readQuoted, ih hread] <;> simp_all
    all_goals assumption

/-- A literal that is cut off is no literal. -/
theorem readLiteral_of_append {text : String} {part rest : List Char}
    (h : part ++ rest = (quoteLiteral text).toList) (hrest : rest ≠ []) :
    readLiteral part = none := by
  cases part with
  | nil => rfl
  | cons c part =>
    obtain rfl : c = '"' := by
      simp [quoteLiteral] at h
      exact h.1
    cases hread : readQuoted part with
    | none => simp [readLiteral, hread]
    | some read =>
      have hwhole := readLiteral_quoteLiteral text []
      rw [List.append_nil, ← h, List.cons_append, readLiteral, readQuoted_append hread] at hwhole
      simp_all

/-- **Quoting loses nothing and shows where it ends.** A literal is read back from its first quote
to its last one and no part of it is a literal before that; it holds no raw line break or tab; and
it is what the passes of escapes make of the text, one after the other. So the literal that stands
for a string in a document is read as a token, which is read as the string. -/
theorem quoteLiteral_lossless (text : String) :
    (∀ rest, readLiteral ((quoteLiteral text).toList ++ rest) = some (text, rest)) ∧
      (∀ part rest, part ++ rest = (quoteLiteral text).toList → rest ≠ [] →
        readLiteral part = none) ∧
      (∀ c ∈ ['\n', '\t', '\r'], c ∉ (quoteLiteral text).toList) ∧
      (quoteLiteral text).toList = '"' :: escapePasses.foldl replaceEach text.toList ++ ['"'] ∧
      ∃ token, readLiteral (jsonLiteral text).text.toList = some (token, []) ∧
        Json.parseDocument token = .ok (.string text) := by
  refine ⟨readLiteral_quoteLiteral text, fun _ _ => readLiteral_of_append, ?_, ?_, ?_⟩
  · simp [notMem_quoteLiteral]
  · rw [foldl_replaceEach, quoteLiteral, String.toList_ofList]
  · refine ⟨Json.stringText text, ?_, Json.parseDocument_stringText text⟩
    have hread := readLiteral_quoteLiteral (Json.stringText text) []
    simpa [jsonLiteral, Body.toList_text, Body.literal, Body.item, choicesPieces, sequencePieces,
      Item.pieces, spelled, Count.mark] using hread

/-- The quote inside a literal does not end it: what stands up to there is no literal. -/
theorem quoteLiteral_lossless_quote :
    (quoteLiteral "a\"b").toList = ['"', 'a', '\\', '"', 'b', '"'] ∧
      readLiteral ['"', 'a', '\\', '"', 'b', '"'] = some ("a\"b", []) ∧
      readLiteral ['"', 'a', '\\', '"'] = none := by
  obtain ⟨hread, hpart, -⟩ := quoteLiteral_lossless "a\"b"
  have htext : (quoteLiteral "a\"b").toList = ['"', 'a', '\\', '"', 'b', '"'] := by decide
  refine ⟨htext, ?_, hpart _ ['b', '"'] htext.symm (List.cons_ne_nil _ _)⟩
  simpa [htext] using hread []

end Grammar

end SchemaGrammar
