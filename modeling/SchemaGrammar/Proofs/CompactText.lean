import SchemaGrammar.Proofs.CompiledLanguage
import SchemaGrammar.Proofs.WrittenText

/-!
# The compact text of an accepted document

Every layout allows no blanks at all, and so does the text of a value of any form. So the style
without blanks may be used everywhere, and the grammar derives the compact texts of what a schema
accepts.

## Main results

* `Shapes.letters_mem_jsonForm`: the text of any plain value is that of a free-form value.
* `Shapes.suits_compact`: a style without blanks may be used everywhere.
* `accepts_text_of_validateUnder`: the grammar derives the compact texts of accepted documents.
-/

namespace SchemaGrammar

open Json (Value Style)
open Grammar

/-! ## Free-form values -/

/-- **The text of a plain value is that of a free-form value**, with the values inside it on a
single line. -/
theorem Shapes.letters_mem_jsonForm (shapes : Shapes) {v : Value} (hp : v.isPlain = true)
    (layout : Layout) : v.letters ∈ jsonForm layout (shapes.language .line) := by
  -- Values inside are less deep, and free-form themselves, in the layout of a single line.
  induction hn : v.depth using Nat.strong_induction_on generalizing v layout with
  | _ n ih =>
    have hnested : ∀ u : Value, u.depth < n → u.isPlain = true →
        u.written .compact 1 ∈ shapes.language .line := by
      intro u hu hplain
      rw [Value.written_compact, Shapes.language_eq]
      exact ih u.depth hu hplain Shapes.lineLayout rfl
    have hleaf : ∀ t : Terminal, (∀ f, t ≠ .format f) → t.admits v = true →
        v.letters ∈ t.language := fun t ht h =>
      Terminal.letters_mem_language hp (fun f _ hf => absurd hf (ht f)) h
    have hfits : Style.compact.Fits 0 layout.descend.blanks layout.blanks :=
      Style.fits_compact layout.descend.nil_mem_blanks layout.nil_mem_blanks
    cases v with
    | null => exact .inl (.inl (.inr (hleaf .null (by simp) rfl)))
    | bool b => exact .inl (.inl (.inl (.inr (hleaf .boolean (by simp) rfl))))
    | number x => exact .inl (.inl (.inl (.inl (.inr (hleaf (.number true) (by simp) rfl)))))
    | string text =>
      have hbounds : (Terminal.string {}).admits (.string text) = true := by
        simp [Terminal.admits, Checking.within]
      exact .inl (.inl (.inl (.inl (.inl (hleaf (.string {}) (by simp) hbounds)))))
    | array items =>
      refine .inl (.inr ?_)
      rw [← Value.written_compact 0, Value.written_array]
      refine mem_listForm hfits (Nat.zero_le _) ⟨Nat.zero_le _, by simp⟩ fun i w hw => ?_
      rw [List.getElem?_map, Option.map_eq_some_iff] at hw
      obtain ⟨u, hu, rfl⟩ := hw
      have hmem := List.mem_of_getElem? hu
      exact hnested u (hn ▸ Value.depth_lt_of_mem_items hmem) (Value.isPlain_array_iff.mp hp u hmem)
    | object members =>
      refine .inr ?_
      rw [← Value.written_compact 0, Value.written_object, ← List.nil_append (members.map _)]
      refine mem_objectForm hfits .nil .nil fun w hw => ⟨_, rfl, ?_⟩
      obtain ⟨m, hm, rfl⟩ := List.mem_map.mp hw
      obtain ⟨hkey, hvalue⟩ := Value.isPlain_object_iff.mp hp m hm
      refine mem_entryForm hfits.space (Json.stringText_mem hkey ⟨Nat.zero_le _, by simp⟩) ?_
      exact hnested m.2 (hn ▸ Value.depth_lt_of_mem_members hm) hvalue

/-! ## Documents -/

theorem Shapes.IsFree.spells {shapes : Shapes} {id : ShapeId} (h : shapes.IsFree id) (depth : Nat)
    (v : Value) : shapes.Spells .compact depth id v := by
  obtain ⟨layout, hget⟩ := h
  intro hp
  rw [Value.written_compact, Shapes.mem_language_iff hget]
  exact shapes.letters_mem_jsonForm hp layout

/-- A style without blanks may be used everywhere. -/
theorem Shapes.suits_compact (shapes : Shapes) : shapes.Suits .compact fun _ _ => True where
  space := .inl rfl
  gaps := fun {_ _ _ layout} _ _ _ => ⟨layout.descend.nil_mem_blanks, layout.nil_mem_blanks⟩
  part := fun _ _ _ _ _ => trivial
  member := fun _ _ _ _ => trivial
  target := fun _ _ => trivial
  free := fun _ hf v => hf.spells _ v

section

variable {s : Schema} {external : Assoc Schema} {v : Value}

/-- The text of an accepted document is a word of the shape of the root. -/
theorem letters_mem_language_of_validateUnder {layout : Layout} {lowered : Lowered}
    (hd : DistinctNames s external) (hs : LexicallyScoped s external)
    (h : lower s external layout = .ok lowered)
    (hv : validateUnder orderly s external v = .ok ()) (hp : v.isPlain = true) :
    v.letters ∈ lowered.shapes.language (.shape lowered.root) := by
  rw [← Value.written_compact 0]
  exact written_mem_language_of_validateUnder hd hs h lowered.shapes.suits_compact trivial hv hp

/-- **Accepted documents are derivable.** The grammar of a lexically scoped schema derives the
compact text of every document that the schema accepts with the members of objects in the order of
the declarations, if the document has no delete characters and no floating-point zeros and its dates
and times are ASCII. -/
theorem accepts_text_of_validateUnder {options : Options} {grammar : String}
    (hd : DistinctNames s external) (hs : LexicallyScoped s external)
    (h : grammarText s external options = .ok grammar)
    (hv : validateUnder orderly s external v = .ok ()) (hp : v.isPlain = true) :
    Accepts grammar v.text := by
  obtain ⟨lowered, hlower, haccepts⟩ := accepts_of_mem_language h
  exact haccepts _ (letters_mem_language_of_validateUnder hd hs hlower hv hp)

end

/-- Events with a date, the events that follow and anything else. -/
def eventSchema : Schema :=
  { reference := some "#/$defs/event"
    definitions := some [("event",
      { types := some (.one .object)
        properties := some
          [("date", { types := some (.one .string), format := some "date" }),
           ("then",
            { types := some (.one .array), items := some { reference := some "#/$defs/event" } })]
        required := some ["date"]
        additional := some (.allowed true) })] }

/-- An event and one that follows it. -/
def eventDocument : Value :=
  .object
    [("date", .string "2024-02-29"),
     ("then", .array [.object [("date", .string "2024-12-31"), ("weight", .number (.real 0.5))]]),
     ("note", .string "a \"leap\" day")]

/-- The text of that document. -/
def eventText : String :=
  "\x7b\"date\":\"2024-02-29\",\"then\":[\x7b\"date\":\"2024-12-31\",\"weight\":0.5\x7d]," ++
    "\"note\":\"a \\\"leap\\\" day\"\x7d"

theorem text_eventDocument : eventDocument.text = eventText := by decide

theorem isPlain_eventDocument : eventDocument.isPlain = true := by decide

theorem distinctNames_eventSchema : DistinctNames eventSchema [] :=
  ⟨List.nodup_nil, by decide, fun _ he => absurd he List.not_mem_nil⟩

theorem lexicallyScoped_eventSchema : LexicallyScoped eventSchema [] :=
  ⟨by decide, fun _ he => absurd he List.not_mem_nil⟩

theorem validateUnder_eventDocument :
    validateUnder orderly eventSchema [] eventDocument = .ok () :=
  (eq_ok_of_isOk (by decide)).choose_spec

theorem exists_grammar_eventSchema : ∃ grammar, grammarText eventSchema [] {} = .ok grammar :=
  eq_ok_of_isOk (by decide +kernel)

theorem accepts_text_eventDocument :
    ∃ grammar, grammarText eventSchema [] {} = .ok grammar ∧ Accepts grammar eventText := by
  obtain ⟨grammar, hg⟩ := exists_grammar_eventSchema
  refine ⟨grammar, hg, text_eventDocument ▸ ?_⟩
  exact accepts_text_of_validateUnder distinctNames_eventSchema lexicallyScoped_eventSchema hg
    validateUnder_eventDocument isPlain_eventDocument

end SchemaGrammar
