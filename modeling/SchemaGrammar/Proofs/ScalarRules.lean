import SchemaGrammar.Proofs.RequestRuns
import SchemaGrammar.Proofs.ScalarTokens

/-!
# The rules of scalars

Whatever an emitter was asked before, its rules mean what they are to mean, as long as the shapes
are those of a schema and the requests are about these shapes or about leaves that have words. So
the rule of a leaf derives the words of the leaf, and for numbers and strings these are tokens.

A leaf has a name reserved for it, but the rule that stands for it need not have that name: a
definition of the schema may have had the same body before, and then the leaf shares its rule. Both
are covered here: a rule under the reserved name, and the rule that an emitter answers with.

## Main definitions

* `Request.IsProper`: requests about the shapes, or about leaves that have words.
* `DerivesExactly`: the rules of a leaf derive certain words and no others.

## Main results

* `exists_rules_reserved`: a rule under the name reserved for a leaf derives its words.
* `derivesExactly_of_language`: the rules of a leaf derive its words.
* `scalar_rules_exact`: the rules for strings and numbers derive the tokens.
-/

namespace SchemaGrammar

open Grammar Json

/-- Whether a request is about the shapes, or about a leaf that has words. -/
def Request.IsProper : Request → Prop
  | .emit _ | .resolve _ | .render _ => True
  | .terminal t => t.WellFormed
  | .intern _ => False

theorem Request.IsProper.isOwn {request : Request} (h : request.IsProper) :
    request.isOwn = true := by
  cases request with
  | intern body => exact h.elim
  | _ => rfl

/-! ## Rules of leaves -/

/-- The rules of a leaf derive the words of `token` and no others: in the rules of a grammar under
the reserved name, if there is such a rule, and after any requests under the name that an emitter
answers with. -/
structure DerivesExactly (shapes : Shapes) (rules : Assoc Body) (t : Terminal)
    (token : List Char → Prop) : Prop where
  reserved : ∀ name ∈ t.ruleName?, name ∈ Assoc.keys rules →
    ∀ w, w ∈ derivable rules name ↔ token w
  answered : ∀ requests : List Request, (∀ request ∈ requests, request.IsProper) →
    ∃ name e, (Emitter.onRules (Rules.terminal t)).run (Emitter.after shapes requests) =
        (.ok (.rule name), e) ∧
      ∀ w, w ∈ derivable e.rules.entries name ↔ token w

/-- What is read back from the text of a whole emission. -/
theorem readGrammar_text {shapes : Shapes} {id : ShapeId} {e : Emitter} (hr : shapes.Ready)
    (hrun : (Emitter.emit shapes id).run (Emitter.start shapes) = (.ok (), e)) (n : Nat) :
    readGrammar (e.text n) = some (loosenedRules (e.grammarRules n)) := by
  obtain ⟨hne, hreadable, hnodup⟩ := readable_grammarRules hr hrun n
  rw [Emitter.text_eq]
  exact readGrammar_rulesText hne hreadable hnodup

section

variable {s : Schema} {external : Assoc Schema} {options : Options} {grammar : String}

/-- A rule of a grammar that is under a reserved name. -/
theorem exists_rules_reserved (h : grammarText s external options = .ok grammar) :
    ∃ lowered rules, lower s external options.layout = .ok lowered ∧
      readGrammar grammar = some rules ∧
      ∀ {t : Terminal} {name : String}, t.WellFormed → t.ruleName? = some name →
        name ∈ Assoc.keys rules → derivable rules name = t.language := by
  obtain ⟨lowered, e, hlower, hrun, rfl⟩ := grammarText_inv h
  have hr := (ready_lower hlower).1
  obtain ⟨hrest, owners, -, -, ho, -⟩ := emit_spec hr hrun
  refine ⟨lowered, _, hlower, readGrammar_text hr hrun _, ?_⟩
  intro t name hw hname hmem
  rw [keys_loosenedRules] at hmem
  have hne : name ≠ "root" := by
    rintro rfl
    exact absurd (Terminal.leadWord_mem hname) (by decide)
  obtain ⟨body, hget⟩ := Assoc.mem_keys_iff.mp ((List.mem_cons.mp hmem).resolve_left hne)
  have hneat := hrest.neat
  have hext := Emitter.extends_root hneat.named options.trailingNewLines
  have hresolves : Resolves lowered.shapes owners e.rules.entries (.terminal t) (.rule name) :=
    (((hneat.befits hget).isBody t hname).drafts hneat hw _ _).resolves (.of_get? hget (.refl body))
  have hlanguage := (hresolves.mono (List.Subset.refl _) hext).language_eq fun o hmem =>
    (hrest.settled ho o hmem).mono (List.Subset.refl _) hext
  rwa [Body.language_rule, Goal.language, ← derivable_loosenedRules] at hlanguage

/-- **The rules of a leaf derive the words of the leaf.** -/
theorem derivesExactly_of_language (h : grammarText s external options = .ok grammar) :
    ∃ lowered rules, lower s external options.layout = .ok lowered ∧
      readGrammar grammar = some rules ∧
      ∀ {t : Terminal} {given : String} {token : List Char → Prop}, t.ruleName? = some given →
        t.WellFormed → (∀ w, w ∈ t.language ↔ token w) →
        DerivesExactly lowered.shapes rules t token := by
  obtain ⟨lowered, rules, hlower, hread, hreserved⟩ := exists_rules_reserved h
  refine ⟨lowered, rules, hlower, hread, ?_⟩
  intro t given token hgiven hw htoken
  refine ⟨fun name hname hmem w => ?_, fun requests hp => ?_⟩
  · rw [hreserved hw hname hmem]
    exact htoken w
  · have hrest := Emitter.atRest_after (ready_lower hlower).1 fun request hmem =>
      (hp request hmem).isOwn
    obtain ⟨owners, ho⟩ := hrest.orderly
    obtain ⟨ref, r, hrun, -, hgrows, -, hrule, hresolves⟩ := Rules.neat_terminal hrest.neat t
    obtain ⟨⟨name, -, rfl⟩, -⟩ := hrule (by rw [hgiven]; rfl)
    have hlanguage := ((hresolves hw).2 lowered.shapes owners).language_eq fun o hmem =>
      (hrest.settled ho o hmem).mono (List.Subset.refl _) hgrows.keeps
    rw [Body.language_rule, Goal.language] at hlanguage
    refine ⟨name, _, run_onRules hrun, fun w => ?_⟩
    rw [hlanguage]
    exact htoken w

/-- **The rules for strings and numbers derive the tokens of JSON.** A string is any string token
without a delete character as it stands; with bounds, one whose number of units is within them, and
there is only one way to divide it into units. A number is any number token, and an integer one
without fraction and exponent. -/
theorem scalar_rules_exact (h : grammarText s external options = .ok grammar) :
    ∃ lowered rules, lower s external options.layout = .ok lowered ∧
      readGrammar grammar = some rules ∧
      DerivesExactly lowered.shapes rules (.string {}) (fun w => IsString w ∧ '\x7f' ∉ w) ∧
      (∀ bounds : LengthBounds, (∀ m ∈ bounds.most, bounds.least ≤ m) →
        DerivesExactly lowered.shapes rules (.string bounds) fun w => '\x7f' ∉ w ∧
          ∃ units, IsUnits units w ∧ (∀ other, IsUnits other w → other = units) ∧
            Within bounds.least bounds.most units.length) ∧
      DerivesExactly lowered.shapes rules (.number true) IsNumber ∧
      DerivesExactly lowered.shapes rules (.number false) fun w =>
        IsNumber w ∧ '.' ∉ w ∧ 'e' ∉ w ∧ 'E' ∉ w := by
  obtain ⟨lowered, rules, hlower, hread, hexact⟩ := derivesExactly_of_language h
  refine ⟨lowered, rules, hlower, hread, ?_, ?_, ?_, ?_⟩
  · exact hexact rfl (by simp [Terminal.WellFormed]) fun w => mem_anyString_iff
  · intro bounds hbounds
    refine hexact rfl hbounds fun w => mem_string_iff.trans (and_congr_right fun _ => ?_)
    refine exists_congr fun units => and_congr_right fun hunits => ?_
    exact (and_iff_right fun other hother => IsUnits.unique hother hunits).symm
  · exact hexact rfl trivial fun w => Lexeme.mem_number_iff
  · exact hexact rfl trivial fun w => Lexeme.mem_integer_iff.trans isInteger_iff

end

/-- An order: a code of two to five characters, a note, a count and a share. -/
def orderSchema : Schema :=
  { types := some (.one .object)
    properties := some [
      ("code", { types := some (.one .string), minLength := some 2, maxLength := some 5 }),
      ("note", { types := some (.one .string) }),
      ("count", { types := some (.one .integer) }),
      ("share", { types := some (.one .number) })]
    additional := some (.allowed false) }

/-- The rules for the leaves of orders have the names that are reserved for them. -/
theorem mem_keys_orderSchema {lowered : Lowered} {e : Emitter}
    (hlower : lower orderSchema [] ⟨true, 4, 0⟩ = .ok lowered)
    (hrun : (Emitter.emit lowered.shapes lowered.root).run (Emitter.start lowered.shapes) =
      (.ok (), e)) :
    ∀ name ∈ ["string-rule", "string-2-5-rule", "fractional-number-rule", "integer-number-rule"],
      name ∈ Assoc.keys e.rules.entries := by
  have hkeys : ∀ l ∈ (lower orderSchema [] ⟨true, 4, 0⟩).toOption,
      ["string-rule", "string-2-5-rule", "fractional-number-rule", "integer-number-rule"] ⊆
        Assoc.keys
          ((Emitter.emit l.shapes l.root).run (Emitter.start l.shapes)).2.rules.entries := by
    decide +kernel
  have hlowered := hkeys lowered (by rw [hlower]; rfl)
  rwa [hrun] at hlowered

theorem scalar_rules_orderSchema :
    ∃ grammar rules, grammarText orderSchema [] {} = .ok grammar ∧
      readGrammar grammar = some rules ∧
      (∀ w, w ∈ derivable rules "string-rule" ↔ IsString w ∧ '\x7f' ∉ w) ∧
      (∀ w, w ∈ derivable rules "string-2-5-rule" ↔ '\x7f' ∉ w ∧
        ∃ units, IsUnits units w ∧ (∀ other, IsUnits other w → other = units) ∧
          Within 2 (some 5) units.length) ∧
      (∀ w, w ∈ derivable rules "fractional-number-rule" ↔ IsNumber w) ∧
      ∀ w, w ∈ derivable rules "integer-number-rule" ↔
        IsNumber w ∧ '.' ∉ w ∧ 'e' ∉ w ∧ 'E' ∉ w := by
  obtain ⟨grammar, h⟩ : ∃ grammar, grammarText orderSchema [] {} = .ok grammar :=
    eq_ok_of_isOk (by decide +kernel)
  obtain ⟨lowered, rules, hlower, hread, hstring, hbounded, hnumber, hinteger⟩ :=
    scalar_rules_exact h
  have hkeys : ∀ name ∈ ["string-rule", "string-2-5-rule", "fractional-number-rule",
      "integer-number-rule"], name ∈ Assoc.keys rules := by
    obtain ⟨lowered', e, hlower', hrun, rfl⟩ := grammarText_inv h
    rw [readGrammar_text (ready_lower hlower').1 hrun] at hread
    cases hread
    intro name hname
    rw [keys_loosenedRules]
    exact List.mem_cons_of_mem _ (mem_keys_orderSchema hlower' hrun name hname)
  refine ⟨grammar, rules, h, hread, ?_, ?_, ?_, ?_⟩
  · exact hstring.reserved _ rfl (hkeys _ (by simp))
  · exact (hbounded ⟨2, some 5⟩ (by simp)).reserved _ rfl (hkeys _ (by simp))
  · exact hnumber.reserved _ rfl (hkeys _ (by simp))
  · exact hinteger.reserved _ rfl (hkeys _ (by simp))

end SchemaGrammar
