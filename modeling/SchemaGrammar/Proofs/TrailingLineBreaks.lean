import SchemaGrammar.Proofs.CompiledLanguage

/-!
# Line breaks after the document

The root rule is the body of the document with line breaks written after it. What is written after
a body goes with the last of its alternatives, so the line breaks follow every text of the document
only if the body is one sequence. It is for every document but one: the two truth values are written
as a bare choice, and there the line breaks go with `false` alone. All other choices are in brackets.

## Main definitions

* `Shapes.isTruthValue`: whether the texts of a shape are the truth values.

## Main results

* `emits_render_rootBody`: the body of a root is one sequence, or that of the truth values.
* `accepts_trailing_iff`: what line breaks after the document add to a grammar.
-/

namespace SchemaGrammar

open Grammar

/-! ## Bodies before line breaks -/

/-- The body of the truth values. -/
def truthBody : Body := choice [.literal "true", .literal "false"]

section

variable {env : String → Language Char} {n : Nat}

/-- What follows one sequence follows all its texts. -/
theorem mem_padded_of_isSegment {body : Body} (h : body.IsSegment) {w : List Char} :
    w ∈ (padded body n).language env ↔
      ∃ u ∈ body.language env, ∃ k ≤ n, w = u ++ List.replicate k '\n' := by
  have hparts : ∀ p ∈ [body, newLines n], p.IsSegment := by
    simp [h, isSegment_newLines n]
  rw [padded, language_sequence hparts, List.map_cons, List.map_singleton, List.prod_pair,
    Language.mem_mul]
  constructor
  · rintro ⟨u, hu, v, hv, rfl⟩
    obtain ⟨k, hk, rfl⟩ := mem_newLines.mp hv
    exact ⟨u, hu, k, hk, rfl⟩
  · rintro ⟨u, hu, k, hk, rfl⟩
    exact ⟨u, hu, _, mem_newLines.mpr ⟨k, hk, rfl⟩, rfl⟩

theorem language_padded_truthBody : (padded truthBody n).language env =
    (Body.literal "true").language env +
      (Body.literal "false").language env * (newLines n).language env := by
  have hchoice : ∀ list, (truthBody ++ items list).language env =
      (Body.literal "true").language env +
        (Body.literal "false").language env * (items list).language env := by
    intro list
    have happend : (truthBody ++ items list).language env =
        choicesLanguage env [[lit "true"], lit "false" :: list] := rfl
    rw [happend]
    simp only [choicesLanguage, sequenceLanguage, Body.literal, Body.item, Body.language, items, lit,
      mul_one, add_zero]
  have hvisible : truthBody.isBlank = false := by decide
  obtain ⟨list, hlist, -⟩ := isSegment_newLines n
  cases hblank : (newLines n).isBlank with
  | true =>
    have hbody : padded truthBody n = truthBody ++ items [] := by
      simp [padded, Grammar.sequence, hvisible, hblank, chain]
      rfl
    have hnil : (items []).language env = 1 := Body.language_empty
    rw [hbody, hchoice, hnil, (isSegment_newLines n).readable.language_of_isBlank hblank]
  | false =>
    have hbody : padded truthBody n = truthBody ++ newLines n := by
      simp [padded, Grammar.sequence, hvisible, hblank, chain]
    rw [hbody, hlist, hchoice]

/-- What follows the truth values follows `false` only. -/
theorem mem_padded_truthBody {w : List Char} :
    w ∈ (padded truthBody n).language env ↔
      w = "true".toList ∨ ∃ k ≤ n, w = "false".toList ++ List.replicate k '\n' := by
  rw [language_padded_truthBody, Language.mem_add, Language.mem_mul, Body.language_literal,
    Body.language_literal]
  refine or_congr Iff.rfl ⟨?_, ?_⟩
  · rintro ⟨u, hu, v, hv, rfl⟩
    obtain ⟨k, hk, rfl⟩ := mem_newLines.mp hv
    exact ⟨k, hk, by rw [mem_word.mp hu]⟩
  · rintro ⟨k, hk, rfl⟩
    exact ⟨_, mem_word.mpr rfl, _, mem_newLines.mpr ⟨k, hk, rfl⟩, rfl⟩

end

/-! ## The body of a root -/

theorem Terminal.isSegment_body {t : Terminal} (hs : t.isString = false) (hv : t.isValue = true)
    (hb : t ≠ .boolean) : (t.body .empty).IsSegment := by
  cases t with
  | string bounds => cases hs
  | boolean => exact absurd rfl hb
  | number fractional =>
    cases fractional with
    | false => exact ⟨_, rfl, readable_integerItem, trivial⟩
    | true => exact ⟨_, rfl, readable_integerItem, readable_fractionItems⟩
  | format f => exact (spells_formatBody f).segment
  | verbatim text => cases hv
  | whitespace layout => cases hv
  | stringChar => cases hv
  | _ => exact Body.isSegment_literal _

/-- What is known of the body of a root: it is that of the truth values, or one sequence. -/
structure IsRootBody (isTruth : Prop) (body : Body) : Prop where
  truth : isTruth → body = truthBody
  segment : ¬ isTruth → body.IsSegment

/-- Whether the shape at a position is that of the truth values. -/
def Shapes.isTruthValue (shapes : Shapes) (id : ShapeId) : Bool :=
  match shapes.get? id with
  | some (.terminal .boolean) => true
  | _ => false

theorem Shapes.isTruthValue_iff {shapes : Shapes} {id : ShapeId} :
    shapes.isTruthValue id = true ↔ shapes.get? id = some (.terminal .boolean) := by
  unfold isTruthValue
  split <;> simp_all

/-- **The body of a root is one sequence**, unless it is that of the truth values. -/
theorem isRootBody_of_emit {shapes : Shapes} {e : Emitter} {id : ShapeId} (hr : shapes.Ready)
    (hrun : (Emitter.emit shapes id).run (Emitter.start shapes) = (.ok (), e)) {body : Body}
    (hroot : e.root = some body) : IsRootBody (shapes.isTruthValue id = true) body := by
  obtain ⟨hrest, owners, found, hfound, -, hbody⟩ := emit_spec hr hrun
  cases hroot.symm.trans hfound
  refine ⟨fun htruth => hbody.leaf (Shapes.isTruthValue_iff.mp htruth), fun htruth => ?_⟩
  by_cases hleaf : ∃ t, shapes.get? id = some (.terminal t)
  · obtain ⟨t, hget⟩ := hleaf
    have hleaf := hbody.leaf hget
    cases hs : t.isString with
    | false =>
      rw [hleaf.eq_body hs]
      refine t.isSegment_body hs (hr.wellFormed _ _ hget).2 fun heq => htruth ?_
      rw [Shapes.isTruthValue_iff, hget, heq]
    | true =>
      cases t with
      | string bounds =>
        obtain ⟨name, found, hget, -, rfl⟩ := hleaf
        exact (isPart_stringBody (Body.isPart_rule (hrest.neat.isName hget))).segment
      | _ => cases hs
  · exact hbody.segment fun t ht => hleaf ⟨t, ht⟩

/-! ## Whole grammars -/

/-- A text with line breaks after it. -/
def withLineBreaks (text : String) (k : Nat) : String :=
  text ++ String.ofList (List.replicate k '\n')

theorem eq_withLineBreaks_iff {text document : String} {k : Nat} :
    text = withLineBreaks document k ↔ text.toList = document.toList ++ List.replicate k '\n' := by
  rw [← String.toList_inj]
  simp [withLineBreaks]

@[simp]
theorem withLineBreaks_zero (text : String) : withLineBreaks text 0 = text := by
  simp [withLineBreaks]

section

variable {s : Schema} {external : Assoc Schema} {options : Options} {grammar : String}
  {lowered : Lowered} {e : Emitter}

theorem grammarText_of_emit (hlower : lower s external options.layout = .ok lowered)
    (hrun : (Emitter.emit lowered.shapes lowered.root).run (Emitter.start lowered.shapes) =
      (.ok (), e)) :
    grammarText s external options = .ok (e.text options.trailingNewLines) := by
  rw [grammarText, hlower]
  simp only [bind, Except.bind, hrun]
  rfl

/-- The texts of a grammar whose root is one sequence. -/
theorem accepts_text_of_not_isTruthValue (hr : lowered.shapes.Ready)
    (hrun : (Emitter.emit lowered.shapes lowered.root).run (Emitter.start lowered.shapes) =
      (.ok (), e)) (ht : ¬ lowered.shapes.isTruthValue lowered.root = true) (n : Nat)
    (text : String) :
    Accepts (e.text n) text ↔ ∃ u ∈ lowered.shapes.language (.shape lowered.root), ∃ k ≤ n,
      text.toList = u ++ List.replicate k '\n' := by
  obtain ⟨body, env, hroot, -, -, hlang, haccepts⟩ := accepts_text_iff_padded hr hrun n
  rw [haccepts, mem_padded_of_isSegment ((isRootBody_of_emit hr hrun hroot).segment ht), hlang]

/-- The texts of a grammar for the truth values. -/
theorem accepts_text_of_isTruthValue (hr : lowered.shapes.Ready)
    (hrun : (Emitter.emit lowered.shapes lowered.root).run (Emitter.start lowered.shapes) =
      (.ok (), e)) (ht : lowered.shapes.isTruthValue lowered.root = true) (n : Nat) (text : String) :
    Accepts (e.text n) text ↔ text = "true" ∨ ∃ k ≤ n, text = withLineBreaks "false" k := by
  obtain ⟨body, env, hroot, -, -, -, haccepts⟩ := accepts_text_iff_padded hr hrun n
  rw [haccepts, (isRootBody_of_emit hr hrun hroot).truth ht, mem_padded_truthBody,
    String.toList_inj]
  simp only [eq_withLineBreaks_iff]

theorem not_accepts_true_lineBreak (hr : lowered.shapes.Ready)
    (hrun : (Emitter.emit lowered.shapes lowered.root).run (Emitter.start lowered.shapes) =
      (.ok (), e)) (ht : lowered.shapes.isTruthValue lowered.root = true) (n : Nat) :
    ¬ Accepts (e.text n) (withLineBreaks "true" 1) := by
  rw [accepts_text_of_isTruthValue hr hrun ht]
  rintro (h | ⟨k, -, h⟩)
  · exact absurd h (by decide)
  · have := congrArg (·.toList.head?) h
    simp [withLineBreaks] at this

/-- What follows the document in a grammar that allows for `n` line breaks after it. -/
theorem accepts_text_iff_plain (hr : lowered.shapes.Ready)
    (hrun : (Emitter.emit lowered.shapes lowered.root).run (Emitter.start lowered.shapes) =
      (.ok (), e)) (n : Nat) (text : String) :
    Accepts (e.text n) text ↔ ∃ document k, Accepts (e.text 0) document ∧ k ≤ n ∧
      text = withLineBreaks document k ∧
      (lowered.shapes.isTruthValue lowered.root = true → document = "true" → k = 0) := by
  by_cases ht : lowered.shapes.isTruthValue lowered.root = true
  · simp only [accepts_text_of_isTruthValue hr hrun ht, Nat.le_zero, exists_eq_left,
      withLineBreaks_zero, ht, forall_const]
    constructor
    · rintro (rfl | ⟨k, hk, rfl⟩)
      · exact ⟨"true", 0, .inl rfl, Nat.zero_le n, (withLineBreaks_zero _).symm, fun _ => rfl⟩
      · exact ⟨"false", k, .inr rfl, hk, rfl, fun hdoc => absurd hdoc (by decide)⟩
    · rintro ⟨document, k, rfl | rfl, hk, rfl, hzero⟩
      · rw [hzero rfl, withLineBreaks_zero]
        exact .inl rfl
      · exact .inr ⟨k, hk, rfl⟩
  · simp only [accepts_text_of_not_isTruthValue hr hrun ht, Nat.le_zero, exists_eq_left,
      List.replicate_zero, List.append_nil, exists_eq_right', eq_withLineBreaks_iff, ht,
      Bool.false_eq_true, false_imp_iff, and_true]
    constructor
    · rintro ⟨u, hu, k, hk, htext⟩
      exact ⟨String.ofList u, k, by rwa [String.toList_ofList], hk, by rwa [String.toList_ofList]⟩
    · rintro ⟨document, k, hdoc, hk, htext⟩
      exact ⟨document.toList, hdoc, k, hk, htext⟩

/-- **What line breaks after the document add to a grammar.** A text is derived exactly if it is one
that is derived without them, followed by at most that many; but nothing may follow `true` if the
document is either of the truth values. So the line breaks are a suffix of whatever the document is
exactly if it is not that, or if none are asked for. -/
theorem accepts_trailing_iff (h : grammarText s external options = .ok grammar) :
    ∃ lowered plain, lower s external options.layout = .ok lowered ∧
      grammarText s external { options with trailingNewLines := 0 } = .ok plain ∧
      (∀ text, Accepts grammar text ↔ ∃ document k, Accepts plain document ∧
        k ≤ options.trailingNewLines ∧ text = withLineBreaks document k ∧
        (lowered.shapes.isTruthValue lowered.root = true → document = "true" → k = 0)) ∧
      ((∀ text, Accepts grammar text ↔ ∃ document k, Accepts plain document ∧
          k ≤ options.trailingNewLines ∧ text = withLineBreaks document k) ↔
        (lowered.shapes.isTruthValue lowered.root = true → options.trailingNewLines = 0)) := by
  obtain ⟨lowered, e, hlower, hrun, rfl⟩ := grammarText_inv h
  have hr := (ready_lower hlower).1
  have hiff := accepts_text_iff_plain hr hrun options.trailingNewLines
  refine ⟨lowered, e.text 0, hlower, grammarText_of_emit hlower hrun, hiff, fun hall ht => ?_,
    fun hzero text => ?_⟩
  · -- one line break after `true` would be derived, and it is not
    by_contra hn
    have htrue : Accepts (e.text 0) "true" :=
      (accepts_text_of_isTruthValue hr hrun ht 0 _).mpr (.inl rfl)
    have hpadded := (hall _).mpr ⟨"true", 1, htrue, by omega, rfl⟩
    exact not_accepts_true_lineBreak hr hrun ht _ hpadded
  · rw [hiff]
    refine exists_congr fun document => exists_congr fun k => ?_
    refine and_congr_right fun _ => and_congr_right fun hk => and_iff_left fun ht _ => ?_
    have := hzero ht
    omega

theorem accepts_trailing_treeSchema : ∃ grammar plain,
    grammarText treeSchema [] {} = .ok grammar ∧
      grammarText treeSchema [] { trailingNewLines := 0 } = .ok plain ∧
      ∀ text, Accepts grammar text ↔ ∃ document k, Accepts plain document ∧ k ≤ 4 ∧
        text = withLineBreaks document k := by
  obtain ⟨grammar, hgrammar⟩ : ∃ grammar, grammarText treeSchema [] {} = .ok grammar :=
    eq_ok_of_isOk (by decide +kernel)
  obtain ⟨lowered, plain, hlower, hplain, -, hiff⟩ := accepts_trailing_iff hgrammar
  have htruth : ((lower treeSchema [] (Options.layout {})).map fun lowered =>
      lowered.shapes.isTruthValue lowered.root) = .ok false := rfl
  rw [hlower, Except.map, Except.ok.injEq] at htruth
  exact ⟨grammar, plain, hgrammar, hplain, hiff.mpr fun ht => by cases htruth.symm.trans ht⟩

/-- The line breaks after a document that is a truth value do not follow `true`. -/
theorem not_accepts_true_trailing : ∃ grammar plain,
    grammarText { types := some (.one .boolean) } [] { trailingNewLines := 1 } = .ok grammar ∧
      grammarText { types := some (.one .boolean) } [] { trailingNewLines := 0 } = .ok plain ∧
      Accepts plain "true" ∧ ¬ Accepts grammar (withLineBreaks "true" 1) := by
  obtain ⟨grammar, hgrammar⟩ : ∃ grammar,
      grammarText { types := some (.one .boolean) } [] { trailingNewLines := 1 } = .ok grammar :=
    eq_ok_of_isOk (by decide +kernel)
  obtain ⟨lowered, e, hlower, hrun, rfl⟩ := grammarText_inv hgrammar
  have hr := (ready_lower hlower).1
  have ht : lowered.shapes.isTruthValue lowered.root = true := by
    cases hlower
    rfl
  exact ⟨_, _, hgrammar, grammarText_of_emit hlower hrun,
    (accepts_text_of_isTruthValue hr hrun ht 0 _).mpr (.inl rfl),
    not_accepts_true_lineBreak hr hrun ht 1⟩

end

end SchemaGrammar
