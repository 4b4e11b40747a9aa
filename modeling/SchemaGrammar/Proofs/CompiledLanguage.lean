import SchemaGrammar.Proofs.Emission

/-!
# The language of a compiled schema

A schema is lowered to shapes and the shapes are written as a grammar. Without line breaks after
the document, the grammar derives exactly the language of the lowered document. With line breaks
allowed after it, they follow the body of the root rule; a body that is a choice takes them only in
its last alternative, so what holds then is stated in two halves: every text has at most line
breaks after a text of the document, and every text of the document is derived.

## Main results

* `accepts_iff_padded`: what the grammar text derives, in terms of the body of the root rule.
* `accepts_iff_mem_language`: without line breaks, the texts of the grammar are those of the
  lowered document.
-/

namespace SchemaGrammar

open Grammar

/-! ## Inverting a compilation -/

section

variable {s : Schema} {external : Assoc Schema} {options : Options} {grammar : String}

/-- A compilation that succeeds has lowered the schema and written the shapes. -/
theorem grammarText_inv (h : grammarText s external options = .ok grammar) :
    ∃ lowered e, lower s external options.layout = .ok lowered ∧
      (Emitter.emit lowered.shapes lowered.root).run (Emitter.start lowered.shapes) = (.ok (), e) ∧
      grammar = e.text options.trailingNewLines := by
  unfold grammarText at h
  cases hl : lower s external options.layout with
  | error error =>
    rw [hl] at h
    cases h
  | ok lowered =>
    rw [hl] at h
    rcases hr : (Emitter.emit lowered.shapes lowered.root).run (Emitter.start lowered.shapes) with
      ⟨_ | ⟨⟨⟩⟩, e⟩
    · simp only [bind, Except.bind, hr] at h
      cases h
    · simp only [bind, Except.bind, hr] at h
      exact ⟨lowered, e, rfl, hr, (Except.ok.inj h).symm⟩

end

/-! ## The rules that were written -/

section

variable {shapes : Shapes} {id : ShapeId} {e : Emitter}

/-- There is no shape outside the table to render, and nothing happens. -/
theorem run_render_outside (hout : ¬ id < shapes.size) (e : Emitter) :
    (Emitter.render shapes id).run e = (.error (.malformedShapes id), e) := by
  simp only [Emitter.render, Emitter.renderWith, Shapes.get?_eq_none hout]
  rfl

theorem run_emit_outside (hout : ¬ id < shapes.size) (e : Emitter) :
    (Emitter.emit shapes id).run e = (.error (.malformedShapes id), e) :=
  run_bind_of_error (run_render_outside hout e)

/-- After a whole emission nothing is in progress, and the body of the root rule stands for its
shape. -/
theorem emit_spec (hr : shapes.Ready)
    (hrun : (Emitter.emit shapes id).run (Emitter.start shapes) = (.ok (), e)) :
    e.AtRest shapes ∧ ∃ owners body, e.root = some body ∧
      Stage.Orderly shapes ⟨e, owners⟩ ∧ Stage.IsRoot shapes ⟨e, owners⟩ id body := by
  have hlt : id < shapes.size := by
    by_contra hout
    rw [run_emit_outside hout] at hrun
    cases hrun
  obtain ⟨body, e', hrun', hrest, ho, hroot, hbody⟩ := exists_emit hr (atRest_start shapes) hlt
  cases hrun.symm.trans hrun'
  exact ⟨hrest, e'.owners, body, hroot, ho, hbody⟩

theorem Rules.Named.root_notMem {r : Rules} (h : r.Named) : "root" ∉ Assoc.keys r.entries := by
  intro hmem
  obtain ⟨body, hget⟩ := Assoc.mem_keys_iff.mp hmem
  rcases h.kind hget with ⟨k, -, hk⟩ | hk | hk | hk
  · have hlead := leadWord_numberedName k
    rw [← hk] at hlead
    have hroot : leadWord "root" = "root".toList := by decide
    rw [hroot] at hlead
    simp at hlead
  · exact absurd hk (by decide)
  · exact absurd hk (by decide)
  · exact absurd (h.taken _ hk).2 (by decide)

/-- The rules of the grammar: the root rule, then all others. -/
def Emitter.grammarRules (e : Emitter) (trailing : Nat) : Assoc Body :=
  ("root", e.rootBody trailing) :: e.rules.entries

theorem Emitter.text_eq (e : Emitter) (trailing : Nat) :
    e.text trailing = rulesText (e.grammarRules trailing) := rfl

/-- The rules stay what they are under a root rule. -/
theorem Emitter.extends_root (h : e.rules.Named) (trailing : Nat) :
    Extends e.rules.entries (e.grammarRules trailing) := by
  intro name body hget
  have hne : "root" ≠ name := fun heq =>
    h.root_notMem (heq ▸ Assoc.mem_keys_iff.mpr ⟨body, hget⟩)
  rw [Emitter.grammarRules, Assoc.get?, if_neg hne, hget]

end

/-! ## Line breaks after the document -/

/-- At most `n` line breaks. -/
def newLines (n : Nat) : Body := chain (List.replicate n optionalNewLine)

theorem isSegment_newLines (n : Nat) : (newLines n).IsSegment :=
  isSegment_chain fun b hb => by
    rw [List.eq_of_mem_replicate hb]
    exact Body.isSegment_item rfl

theorem mem_newLines {n : Nat} {env : String → Language Char} {w : List Char} :
    w ∈ (newLines n).language env ↔ ∃ k ≤ n, w = List.replicate k '\n' := by
  have hone : ∀ w, w ∈ optionalNewLine.language env ↔ w = [] ∨ w = ['\n'] := by
    intro w
    rw [optionalNewLine, Body.language_item, Item.language, Count.mem_power_optional,
      language_oneOf]
    simp [Lexeme.mem_among]
  have hseg : ∀ b ∈ List.replicate n optionalNewLine, b.IsSegment := by
    intro b hb
    rw [List.eq_of_mem_replicate hb]
    exact Body.isSegment_item rfl
  rw [newLines, language_chain hseg, List.map_replicate, List.prod_replicate]
  induction n generalizing w with
  | zero => simp [Language.mem_one]
  | succ n ih =>
    have hseg' : ∀ b ∈ List.replicate n optionalNewLine, b.IsSegment := fun b hb =>
      hseg b (List.mem_cons_of_mem _ hb)
    rw [pow_succ', Language.mem_mul]
    constructor
    · rintro ⟨u, hu, v, hv, rfl⟩
      obtain ⟨k, hk, rfl⟩ := (ih hseg').mp hv
      rcases (hone u).mp hu with rfl | rfl
      · exact ⟨k, Nat.le_succ_of_le hk, rfl⟩
      · exact ⟨k + 1, Nat.succ_le_succ hk, rfl⟩
    · rintro ⟨k, hk, rfl⟩
      cases k with
      | zero => exact ⟨[], (hone _).mpr (.inl rfl), [], (ih hseg').mpr ⟨0, Nat.zero_le n, rfl⟩, rfl⟩
      | succ k =>
        exact ⟨['\n'], (hone _).mpr (.inr rfl), _,
          (ih hseg').mpr ⟨k, Nat.le_of_succ_le_succ hk, rfl⟩, rfl⟩

/-- A segment after a body goes with the last alternative of the body. -/
theorem Body.exists_choices_append {a b : Body} (ha : a.choices ≠ []) (hb : b.IsSegment) :
    ∃ others last more, a.choices = others ++ [last] ∧ b = items more ∧ SequenceReadable more ∧
      (a ++ b).choices = others ++ [last ++ more] := by
  obtain ⟨more, rfl, hmore⟩ := hb
  have happend : ∀ (others : List (List Item)) (last : List Item),
      Body.appendChoices (others ++ [last]) [more] = others ++ [last ++ more] := by
    intro others last
    induction others with
    | nil => rfl
    | cons first others ih =>
      cases others with
      | nil => rfl
      | cons second others => exact congrArg (first :: ·) ih
  refine ⟨a.choices.dropLast, a.choices.getLast ha, more,
    (List.dropLast_append_getLast ha).symm, rfl, hmore, ?_⟩
  have h := happend a.choices.dropLast (a.choices.getLast ha)
  rw [List.dropLast_append_getLast ha] at h
  exact h

/-- The root rule: a body, and line breaks after it. -/
def padded (body : Body) (n : Nat) : Body := Grammar.sequence [body, newLines n]

section

variable {body : Body} {env : String → Language Char} {n : Nat}

theorem padded_cases (hvis : body.isBlank = false) (n : Nat) :
    padded body n = body ∨ padded body n = body ++ newLines n := by
  unfold padded Grammar.sequence
  cases hn : (newLines n).isBlank with
  | true => exact .inl (by simp [hvis, hn, chain])
  | false => exact .inr (by simp [hvis, hn, chain])

theorem padded_zero (hvis : body.isBlank = false) : padded body 0 = body := by
  have hblank : (newLines 0).isBlank = true := by decide
  simp [padded, Grammar.sequence, hvis, hblank, chain]

theorem readable_padded (hread : body.Readable) (hvis : body.isBlank = false) (n : Nat) :
    (padded body n).Readable := by
  rcases padded_cases hvis n with heq | heq
  · rw [heq]
    exact hread
  · obtain ⟨others, last, more, ha, -, hmore, happ⟩ :=
      Body.exists_choices_append hread.1 (isSegment_newLines n)
    have hall := choicesReadable_iff.mp hread.2
    rw [ha] at hall
    rw [heq]
    refine ⟨by simp [happ], choicesReadable_iff.mpr fun list hl => ?_⟩
    rw [happ] at hl
    rcases List.mem_append.mp hl with hl | hl
    · exact hall list (List.mem_append_left _ hl)
    · rw [List.mem_singleton.mp hl]
      refine sequenceReadable_iff.mpr fun i hi => ?_
      rcases List.mem_append.mp hi with hi | hi
      · exact sequenceReadable_iff.mp (hall last (by simp)) i hi
      · exact sequenceReadable_iff.mp hmore i hi

/-- What stands before line breaks is a text of the body. -/
theorem mem_of_mem_padded (hread : body.Readable) (hvis : body.isBlank = false) {w : List Char}
    (h : w ∈ (padded body n).language env) :
    ∃ u k, u ∈ body.language env ∧ k ≤ n ∧ w = u ++ List.replicate k '\n' := by
  rcases padded_cases hvis n with heq | heq
  · exact ⟨w, 0, heq ▸ h, Nat.zero_le n, by simp⟩
  · obtain ⟨others, last, more, ha, hb, -, happ⟩ :=
      Body.exists_choices_append hread.1 (isSegment_newLines n)
    rw [heq, Body.language, happ, mem_choicesLanguage] at h
    obtain ⟨list, hl, hw⟩ := h
    rcases List.mem_append.mp hl with hl | hl
    · refine ⟨w, 0, ?_, Nat.zero_le n, by simp⟩
      rw [Body.language, ha, mem_choicesLanguage]
      exact ⟨list, List.mem_append_left _ hl, hw⟩
    · rw [List.mem_singleton.mp hl, sequenceLanguage_append, Language.mem_mul] at hw
      obtain ⟨u, hu, v, hv, rfl⟩ := hw
      rw [← Body.language_items, ← hb] at hv
      obtain ⟨k, hk, rfl⟩ := mem_newLines.mp hv
      refine ⟨u, k, ?_, hk, rfl⟩
      rw [Body.language, ha, mem_choicesLanguage]
      exact ⟨last, by simp, hu⟩

/-- Every text of the body is one of the root rule. -/
theorem language_le_padded (hread : body.Readable) (hvis : body.isBlank = false) :
    body.language env ≤ (padded body n).language env := by
  intro w (hw : w ∈ body.language env)
  show w ∈ (padded body n).language env
  rcases padded_cases hvis n with heq | heq
  · rwa [heq]
  · obtain ⟨others, last, more, ha, hb, -, happ⟩ :=
      Body.exists_choices_append hread.1 (isSegment_newLines n)
    rw [Body.language, ha, mem_choicesLanguage] at hw
    obtain ⟨list, hl, hw⟩ := hw
    rw [heq, Body.language, happ, mem_choicesLanguage]
    rcases List.mem_append.mp hl with hl | hl
    · exact ⟨list, List.mem_append_left _ hl, hw⟩
    · refine ⟨last ++ more, by simp, ?_⟩
      rw [List.mem_singleton.mp hl] at hw
      have hnil : [] ∈ sequenceLanguage env more := by
        rw [← Body.language_items, ← hb, mem_newLines]
        exact ⟨0, Nat.zero_le n, rfl⟩
      rw [sequenceLanguage_append]
      simpa using Language.append_mem_mul hw hnil

end

/-! ## The whole grammar -/

section

variable {s : Schema} {external : Assoc Schema} {options : Options} {grammar : String}

/-- The rules of a whole emission have distinct names and can be read back. -/
theorem readable_grammarRules {shapes : Shapes} {id : ShapeId} {e : Emitter}
    (hr : shapes.Ready)
    (hrun : (Emitter.emit shapes id).run (Emitter.start shapes) = (.ok (), e)) (n : Nat) :
    e.grammarRules n ≠ [] ∧ (∀ r ∈ e.grammarRules n, IsName r.1 ∧ r.2.Readable) ∧
      (Assoc.keys (e.grammarRules n)).Nodup := by
  obtain ⟨hrest, owners, body, hroot, -, hbody⟩ := emit_spec hr hrun
  have hneat := hrest.neat
  have hrules : e.grammarRules n = ("root", padded body n) :: e.rules.entries := by
    rw [Emitter.grammarRules, Emitter.rootBody, hroot]
    rfl
  have hname : IsName "root" := by decide
  rw [hrules]
  refine ⟨List.cons_ne_nil _ _, List.forall_mem_cons.mpr
    ⟨⟨hname, readable_padded hbody.written.readable hbody.written.visible n⟩, fun r hr => ?_⟩, ?_⟩
  · have hget := Assoc.get?_of_mem hneat.named.nodup hr
    exact ⟨hneat.isName hget, hneat.readable hget⟩
  · exact List.nodup_cons.mpr ⟨hneat.named.root_notMem, hneat.named.nodup⟩

/-- The text of a whole emission derives what the body of the root rule and line breaks after it
match, and that body has the language of the root. -/
theorem accepts_text_iff_padded {lowered : Lowered} {e : Emitter}
    (hr : lowered.shapes.Ready)
    (hrun : (Emitter.emit lowered.shapes lowered.root).run (Emitter.start lowered.shapes) =
      (.ok (), e)) (n : Nat) :
    ∃ body env, e.root = some body ∧ body.Readable ∧ body.isBlank = false ∧
      body.language env = lowered.shapes.language (.shape lowered.root) ∧
      ∀ text : String, Accepts (e.text n) text ↔ text.toList ∈ (padded body n).language env := by
  obtain ⟨hrest, owners, body, hroot, ho, hbody⟩ := emit_spec hr hrun
  have hext := Emitter.extends_root hrest.neat.named n
  have hlang := (hbody.resolves.mono (List.Subset.refl _) hext).language_eq fun o hmem =>
    (hrest.settled ho o hmem).mono (List.Subset.refl _) hext
  refine ⟨body, derivable (e.grammarRules n), hroot, hbody.written.readable, hbody.written.visible,
    hlang, fun text => ?_⟩
  have hroot' : (e.grammarRules n).get? "root" = some (padded body n) := by
    rw [Emitter.grammarRules, Emitter.rootBody, hroot, Assoc.get?, if_pos rfl]
    rfl
  obtain ⟨hne, hreadable, hnodup⟩ := readable_grammarRules hr hrun n
  rw [Emitter.text_eq, accepts_iff_derivable hne hreadable hnodup, derivable_of_get? hroot']

/-- **The grammar text derives what the body of the root rule and line breaks after it match**, and
that body has the language of the lowered document. -/
theorem accepts_iff_padded (h : grammarText s external options = .ok grammar) :
    ∃ lowered body env, lower s external options.layout = .ok lowered ∧
      body.Readable ∧ body.isBlank = false ∧
      body.language env = lowered.shapes.language (.shape lowered.root) ∧
      ∀ text : String, Accepts grammar text ↔
        text.toList ∈ (padded body options.trailingNewLines).language env := by
  obtain ⟨lowered, e, hlower, hrun, rfl⟩ := grammarText_inv h
  obtain ⟨body, env, -, hbody⟩ :=
    accepts_text_iff_padded (ready_lower hlower).1 hrun options.trailingNewLines
  exact ⟨lowered, body, env, hlower, hbody⟩

/-- Whatever line breaks may follow, the grammar derives every text of the lowered document. -/
theorem accepts_of_mem_language (h : grammarText s external options = .ok grammar) :
    ∃ lowered, lower s external options.layout = .ok lowered ∧
      ∀ text : String, text.toList ∈ lowered.shapes.language (.shape lowered.root) →
        Accepts grammar text := by
  obtain ⟨lowered, body, env, hlower, hread, hvis, hlang, haccepts⟩ := accepts_iff_padded h
  refine ⟨lowered, hlower, fun text htext => (haccepts text).mpr ?_⟩
  rw [← hlang] at htext
  exact language_le_padded hread hvis htext

/-- **Code generation preserves meaning.** Without line breaks after the document, the grammar of a
schema derives exactly the texts of the document that the schema was lowered to. -/
theorem accepts_iff_mem_language (h : grammarText s external options = .ok grammar)
    (ht : options.trailingNewLines = 0) :
    ∃ lowered, lower s external options.layout = .ok lowered ∧
      ∀ text : String, Accepts grammar text ↔
        text.toList ∈ lowered.shapes.language (.shape lowered.root) := by
  obtain ⟨lowered, body, env, hlower, -, hvis, hlang, haccepts⟩ := accepts_iff_padded h
  refine ⟨lowered, hlower, fun text => ?_⟩
  rw [haccepts, ht, padded_zero hvis, hlang]

end

theorem eq_ok_of_isOk {ε α : Type} {x : Except ε α} (h : x.isOk = true) : ∃ a, x = .ok a := by
  cases x with
  | error e => cases h
  | ok a => exact ⟨a, rfl⟩

/-- A document that contains itself: a tree whose nodes may have children and anything else. -/
def treeSchema : Schema :=
  { reference := some "#/$defs/tree"
    definitions := some [("tree",
      { types := some (.one .object)
        properties := some [("children",
          { types := some (.one .array), items := some { reference := some "#/$defs/tree" } })]
        required := some []
        additional := some (.allowed true) })] }

theorem accepts_treeSchema_iff :
    ∃ grammar, grammarText treeSchema [] { trailingNewLines := 0 } = .ok grammar ∧
      ∃ lowered, lower treeSchema [] ⟨true, 4, 0⟩ = .ok lowered ∧
        ∀ text : String, Accepts grammar text ↔
          text.toList ∈ lowered.shapes.language (.shape lowered.root) := by
  have hok : (grammarText treeSchema [] { trailingNewLines := 0 }).isOk = true := by
    decide +kernel
  cases hg : grammarText treeSchema [] { trailingNewLines := 0 } with
  | error error =>
    rw [hg] at hok
    cases hok
  | ok grammar => exact ⟨grammar, rfl, accepts_iff_mem_language hg rfl⟩

end SchemaGrammar
