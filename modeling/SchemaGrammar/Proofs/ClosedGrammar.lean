import SchemaGrammar.Proofs.CompactText

/-!
# The grammar of a schema is closed and not left-recursive

What a compilation leaves behind, seen from outside. The table of shapes is in order, so emission
finds whatever it looks for. The text of the grammar is read back line by line: each line is one
rule, and each name in a body is the name of a line, whatever strings the schema contains.

A left corner of a rule is a rule that a derivation can begin with after items that match nothing.
Left corners are among the heads of bodies, and the heads of a finished table lead nowhere back.

## Main definitions

* `Shapes.InOrder`: the table of shapes is in order.
* `ClosedRules`: all rules that a grammar mentions are there.
* `LeftCorner`: a rule that another one can begin with.

## Main results

* `lower_inOrder`: the table of a schema is in order, and its root is emitted.
* `closedRules_grammarText`: the grammar of a schema is closed.
* `not_leftRecursive_grammarText`: no rule of it is its own left corner, and only schemas whose
  shapes begin with themselves are refused for that.
-/

namespace SchemaGrammar

open Grammar
open Relation (ReflTransGen TransGen)

/-! ## Tables in order -/

/-- `shapes.Contains id part`: the shape `part` is a part of the shape `id`. -/
def Shapes.Contains (shapes : Shapes) (id part : ShapeId) : Prop :=
  ∃ shape, shapes.get? id = some shape ∧ part ∈ shape.parts

/-- Parts come before the shapes that they are parts of, references lead into the table, choices and
enumerations have members, and bounds are in order. -/
structure Shapes.InOrder (shapes : Shapes) : Prop where
  parts : ∀ {id part}, shapes.Contains id part → part < id ∧ id < shapes.size
  target : ∀ {id name target}, shapes.get? id = some (.reference name target) →
    ∃ t ∈ target, t < shapes.size
  enumeration : ∀ {id members}, shapes.get? id = some (.enumeration members) →
    members ≠ [] ∧ ∀ m ∈ members, ∃ t, shapes.get? m = some (.terminal t) ∧ t.isLiteral = true
  union : ∀ {id members}, shapes.get? id = some (.union members) → 2 ≤ members.length
  array : ∀ {id shape}, shapes.get? id = some (.array shape) →
    shape.leading.length ≤ shape.least ∧ ∀ m ∈ shape.most, shape.least ≤ m
  string : ∀ {id bounds}, shapes.get? id = some (.terminal (.string bounds)) →
    ∀ m ∈ bounds.most, bounds.least ≤ m

/-- Every cycle goes through the target of a reference. -/
theorem Shapes.InOrder.not_contains_self {shapes : Shapes} (h : shapes.InOrder) (id : ShapeId) :
    ¬ TransGen shapes.Contains id id := by
  have hlt : ∀ {a b}, TransGen shapes.Contains a b → b < a := by
    intro a b hab
    induction hab with
    | single hab => exact (h.parts hab).1
    | tail _ hbc ih => exact (h.parts hbc).1.trans ih
  exact fun hcycle => Nat.lt_irrefl id (hlt hcycle)

section

variable {s : Schema} {external : Assoc Schema} {layout : Layout} {lowered : Lowered}

theorem inOrder_of_lower (h : lower s external layout = .ok lowered) : lowered.shapes.InOrder := by
  obtain ⟨ho, -, -, hresolved, hregular⟩ :=
    lower_tidy (fun _ => True) (fun _ _ _ _ => trivial) trivial (fun _ _ => trivial) h
  have hw := wellFormed_lower h
  refine ⟨?_, fun {id name target} hget => ?_, fun hget => ⟨hw _ _ hget, hregular hget⟩,
    fun hget => hregular hget, fun hget => hw _ _ hget, fun hget => (hw _ _ hget).1⟩
  · rintro id part ⟨shape, hget, hpart⟩
    exact ⟨ho.parts hget part hpart, Shapes.lt_size_of_get? hget⟩
  · cases target with
    | none => exact absurd hget (hresolved id name)
    | some t => exact ⟨t, rfl, ho.targets hget⟩

/-- **The table of a schema is in order.** Its root is in it, parts come before what they are parts
of, so every cycle goes through the target of a reference, and objects name no property twice if no
fragment of the schema does. So its root can be emitted. -/
theorem lower_inOrder (h : lower s external layout = .ok lowered) :
    lowered.root < lowered.shapes.size ∧ lowered.shapes.InOrder ∧
      (∀ id, ¬ TransGen lowered.shapes.Contains id id) ∧
      (DistinctNames s external → ∀ id shape, lowered.shapes.get? id = some (.object shape) →
        (shape.properties.map Property.key).Nodup) ∧
      ∃ e, (Emitter.emit lowered.shapes lowered.root).run (Emitter.start lowered.shapes) =
        (.ok (), e) := by
  obtain ⟨hready, hroot⟩ := ready_lower h
  have hin := inOrder_of_lower h
  obtain ⟨-, e, hrun, -⟩ := exists_emit hready (atRest_start lowered.shapes) hroot
  exact ⟨hroot, hin, hin.not_contains_self, fun hd => nodup_keys_of_lower hd h, _, hrun⟩

theorem lower_eventSchema_inOrder :
    ∃ lowered, lower eventSchema [] ⟨true, 4, 0⟩ = .ok lowered ∧
      lowered.root < lowered.shapes.size ∧ lowered.shapes.InOrder ∧
      (∀ id, ¬ TransGen lowered.shapes.Contains id id) ∧
      (∀ id shape, lowered.shapes.get? id = some (.object shape) →
        (shape.properties.map Property.key).Nodup) ∧
      ∃ e, (Emitter.emit lowered.shapes lowered.root).run (Emitter.start lowered.shapes) =
        (.ok (), e) := by
  obtain ⟨lowered, hlower⟩ : ∃ lowered, lower eventSchema [] ⟨true, 4, 0⟩ = .ok lowered :=
    eq_ok_of_isOk (by decide +kernel)
  obtain ⟨hroot, hin, hcycle, hkeys, hemit⟩ := lower_inOrder hlower
  exact ⟨lowered, hlower, hroot, hin, hcycle, hkeys distinctNames_eventSchema, hemit⟩

end

/-! ## Closed grammars -/

/-- The first rule is `root`, no two rules have the same name, and names are those of rules. -/
structure ClosedRules (rules : Assoc Body) : Prop where
  first : (Assoc.keys rules).head? = some "root"
  distinct : (Assoc.keys rules).Nodup
  isName : ∀ name ∈ Assoc.keys rules, IsName name
  known : ∀ r ∈ rules, ∀ name ∈ r.2.names, name ∈ Assoc.keys rules

theorem namesIn_padded {known : String → Prop} {body : Body} (h : body.NamesIn known) (n : Nat) :
    (padded body n).NamesIn known := by
  have hbreak : optionalNewLine.NamesIn known := namesIn_item fun _ hn => absurd hn List.not_mem_nil
  refine namesIn_sequence fun part hpart => ?_
  rcases List.mem_pair.mp hpart with rfl | rfl
  · exact h
  · exact namesIn_chain fun b hb => List.eq_of_mem_replicate hb ▸ hbreak

section

variable {shapes : Shapes} {e : Emitter} {body : Body}

theorem Emitter.grammarRules_eq (hroot : e.root = some body) (n : Nat) :
    e.grammarRules n = ("root", padded body n) :: e.rules.entries := by
  rw [Emitter.grammarRules, Emitter.rootBody, hroot]
  rfl

/-- The rules of a finished emission can be written, and are closed. -/
theorem Emitter.AtRest.grammarRules (h : e.AtRest shapes) (hroot : e.root = some body)
    (hw : e.Written body) (n : Nat) :
    (∀ r ∈ e.grammarRules n, IsName r.1 ∧ r.2.Readable) ∧ ClosedRules (e.grammarRules n) := by
  have hneat := h.neat
  have hkeys : Assoc.keys (e.grammarRules n) = "root" :: Assoc.keys e.rules.entries := rfl
  have hreadable : ∀ r ∈ e.grammarRules n, IsName r.1 ∧ r.2.Readable := by
    rw [Emitter.grammarRules_eq hroot]
    have hname : IsName "root" := by decide
    refine List.forall_mem_cons.mpr ⟨⟨hname, readable_padded hw.readable hw.visible n⟩, ?_⟩
    intro r hr
    have hget := Assoc.get?_of_mem hneat.named.nodup hr
    exact ⟨hneat.isName hget, hneat.readable hget⟩
  refine ⟨hreadable, ?_, ?_, fun name hname => ?_, ?_⟩
  · rw [hkeys]
    rfl
  · rw [hkeys]
    exact List.nodup_cons.mpr ⟨hneat.named.root_notMem, hneat.named.nodup⟩
  · obtain ⟨r, hr, rfl⟩ := List.mem_map.mp hname
    exact (hreadable r hr).1
  · have hknown : ∀ {b : Body}, b.NamesIn (e.rules.Knows (GivenAway e.resolution)) →
        b.NamesIn fun name => name ∈ Assoc.keys (e.grammarRules n) := fun hb =>
      hb.mono fun _ hk => hkeys ▸ List.mem_cons_of_mem _ (h.mem_keys hk)
    intro r hr
    rw [Emitter.grammarRules_eq hroot] at hr
    rcases List.mem_cons.mp hr with rfl | hr
    · exact hknown (namesIn_padded hw.known n)
    · exact hknown (hneat.closed (Assoc.get?_of_mem hneat.named.nodup hr))

/-- Blanks inside groups change nothing. -/
theorem ClosedRules.loosenedRules {rules : Assoc Body} (h : ClosedRules rules) :
    ClosedRules (loosenedRules rules) := by
  refine ⟨?_, ?_, ?_, ?_⟩
  · rw [keys_loosenedRules]
    exact h.first
  · rw [keys_loosenedRules]
    exact h.distinct
  · rw [keys_loosenedRules]
    exact h.isName
  · rw [keys_loosenedRules]
    intro r hr
    obtain ⟨found, hfound, rfl⟩ := List.mem_map.mp hr
    dsimp only
    rw [found.2.names_loosened.1]
    exact h.known found hfound

end

section

variable {s : Schema} {external : Assoc Schema}

/-- **A schema that can be lowered has a grammar**, the text of what a finished emission leaves. -/
theorem exists_grammarText {options : Options} {lowered : Lowered}
    (h : lower s external options.layout = .ok lowered) :
    ∃ e body, (Emitter.emit lowered.shapes lowered.root).run (Emitter.start lowered.shapes) =
        (.ok (), e) ∧
      grammarText s external options =
        .ok (rulesText (e.grammarRules options.trailingNewLines)) ∧
      e.AtRest lowered.shapes ∧ e.root = some body ∧ e.Written body := by
  obtain ⟨hready, hlt⟩ := ready_lower h
  obtain ⟨body, e, hrun, hrest, -, hroot, hbody⟩ :=
    exists_emit hready (atRest_start lowered.shapes) hlt
  refine ⟨e.toEmitter, body, hrun, ?_, hrest, hroot, hbody.written⟩
  rw [grammarText, h]
  simp only [bind, Except.bind, hrun]
  rfl

/-- **The grammar of a schema is closed**, whatever strings the schema contains. Each line is read
as one rule; there is one line for the root and one for each rule of the emission; and every name in
a body is the name of a rule. -/
theorem closedRules_grammarText {options : Options} {grammar : String}
    (h : grammarText s external options = .ok grammar) :
    ∃ lowered e rules, lower s external options.layout = .ok lowered ∧
      (Emitter.emit lowered.shapes lowered.root).run (Emitter.start lowered.shapes) = (.ok (), e) ∧
      (grammar.toList.splitOn '\n').map readRule = rules.map some ∧
      (grammar.toList.splitOn '\n').length = 1 + e.rules.size ∧
      ClosedRules rules := by
  obtain ⟨lowered, -, hlower, -, -⟩ := grammarText_inv h
  obtain ⟨e, body, hrun, htext, hrest, hroot, hw⟩ := exists_grammarText hlower
  cases h.symm.trans htext
  obtain ⟨hreadable, hclosed⟩ := hrest.grammarRules hroot hw options.trailingNewLines
  have hne : e.grammarRules options.trailingNewLines ≠ [] := List.cons_ne_nil _ _
  refine ⟨lowered, e, _, hlower, hrun, ?_, ?_, hclosed.loosenedRules⟩
  · rw [splitOn_rulesText hne hreadable, loosenedRules, List.map_map, List.map_map]
    exact List.map_congr_left fun r hr => readRule_ruleText (hreadable r hr).1 (hreadable r hr).2
  · rw [splitOn_rulesText hne hreadable, List.length_map, Nat.add_comm]
    rfl

/-- Keys and constants that look like parts of a grammar. -/
def hostileSchema : Schema :=
  { reference := some "#/$defs/root ::= \"x\""
    definitions := some [("root ::= \"x\"",
      { types := some (.one .object)
        properties := some
          [("\"\nroot ::= any", { constant := some (.string "\" | root | [\n]") }),
           ("]", { enumeration := some [.string "\\", .string "\n"] })]
        required := some ["]"]
        additional := some (.allowed false) })] }

theorem closedRules_hostileSchema :
    ∃ grammar, grammarText hostileSchema [] {} = .ok grammar ∧
      ∃ lowered e rules, lower hostileSchema [] ⟨true, 4, 0⟩ = .ok lowered ∧
        (Emitter.emit lowered.shapes lowered.root).run (Emitter.start lowered.shapes) =
          (.ok (), e) ∧
        (grammar.toList.splitOn '\n').map readRule = rules.map some ∧
        (grammar.toList.splitOn '\n').length = 1 + e.rules.size ∧ ClosedRules rules := by
  obtain ⟨grammar, hg⟩ : ∃ grammar, grammarText hostileSchema [] {} = .ok grammar :=
    eq_ok_of_isOk (by decide +kernel)
  exact ⟨grammar, hg, closedRules_grammarText hg⟩

end

/-! ## Left corners -/

namespace Grammar

mutual

/-- A rule that an item can begin with. -/
def Item.CanStart (env : String → Language Char) (name : String) : Item → Prop
  | .literal _ _ | .chars _ _ => False
  | .rule other _ => other = name
  | .group _ choices _ => ChoicesCanStart env name choices

/-- A rule that a sequence can begin with, after items that match nothing. -/
def SequenceCanStart (env : String → Language Char) (name : String) : List Item → Prop
  | [] => False
  | i :: items => i.CanStart env name ∨ [] ∈ i.language env ∧ SequenceCanStart env name items

/-- A rule that a choice can begin with. -/
def ChoicesCanStart (env : String → Language Char) (name : String) : List (List Item) → Prop
  | [] => False
  | items :: choices => SequenceCanStart env name items ∨ ChoicesCanStart env name choices

end

/-- `LeftCorner rules a b`: a derivation of the rule `a` can begin with the rule `b`, after items
that match nothing. -/
def LeftCorner (rules : Assoc Body) (a b : String) : Prop :=
  ∃ body, rules.get? a = some body ∧ ChoicesCanStart (derivable rules) b body.choices

theorem Item.nil_notMem_of_isSolid {i : Item} (h : i.isSolid = true)
    (env : String → Language Char) : [] ∉ i.language env := by
  cases i with
  | literal text count =>
    cases count <;> simp [Item.isSolid] at h
    rw [Item.language, Count.power_once, mem_word]
    exact fun hnil => h (String.toList_eq_nil_iff.mp hnil.symm)
  | chars set count =>
    cases count <;> simp [Item.isSolid] at h
    rw [Item.language, Count.power_once, CharClass.mem_language]
    rintro ⟨c, -, hc⟩
    cases hc
  | rule name count => simp [Item.isSolid] at h
  | group tight choices count => simp [Item.isSolid] at h

mutual

theorem Item.mem_heads_of_canStart {env : String → Language Char} {name : String} :
    (i : Item) → i.CanStart env name → name ∈ i.heads
  | .literal _ _, h => h.elim
  | .chars _ _, h => h.elim
  | .rule _ _, h => List.mem_singleton.mpr h.symm
  | .group _ choices _, h => mem_choicesHeads_of_canStart choices h

theorem mem_sequenceHeads_of_canStart {env : String → Language Char} {name : String} :
    (items : List Item) → SequenceCanStart env name items → name ∈ sequenceHeads items
  | [], h => h.elim
  | i :: items, h => by
    rw [sequenceHeads]
    cases hs : i.isSolid with
    | true =>
      -- a solid item has no heads, and nothing after it can come first
      have hi : i.heads = [] := by
        cases i <;> simp [Item.isSolid, Item.heads] at hs ⊢
      rcases h with h | ⟨hnil, -⟩
      · exact absurd (i.mem_heads_of_canStart h) (hi ▸ List.not_mem_nil)
      · exact absurd hnil (Item.nil_notMem_of_isSolid hs env)
    | false =>
      rw [if_neg Bool.false_ne_true]
      rcases h with h | ⟨-, h⟩
      · exact List.mem_append_left _ (i.mem_heads_of_canStart h)
      · exact List.mem_append_right _ (mem_sequenceHeads_of_canStart items h)

theorem mem_choicesHeads_of_canStart {env : String → Language Char} {name : String} :
    (choices : List (List Item)) → ChoicesCanStart env name choices → name ∈ choicesHeads choices
  | [], h => h.elim
  | items :: choices, h =>
    h.elim (fun h => List.mem_append_left _ (mem_sequenceHeads_of_canStart items h))
      fun h => List.mem_append_right _ (mem_choicesHeads_of_canStart choices h)

end

end Grammar

section

variable {shapes : Shapes} {e : Emitter} {body : Body}

/-- The left corners of a finished grammar are heads of its rules or of the root. -/
theorem leads_of_leftCorner (hroot : e.root = some body) (n : Nat) (a b : String)
    (h : LeftCorner (loosenedRules (e.grammarRules n)) a b) :
    e.rules.Leads a b ∨ a = "root" ∧ b ∈ (padded body n).heads := by
  obtain ⟨found, hget, hstart⟩ := h
  have hb : b ∈ found.heads := mem_choicesHeads_of_canStart _ hstart
  rw [get?_loosenedRules, Emitter.grammarRules_eq hroot, Option.map_eq_some_iff] at hget
  obtain ⟨rule, hrule, rfl⟩ := hget
  rw [rule.names_loosened.2] at hb
  rw [Assoc.get?] at hrule
  split_ifs at hrule with ha
  · cases hrule
    exact .inr ⟨ha.symm, hb⟩
  · exact .inl ⟨rule, hrule, hb⟩

/-- **A finished grammar is not left-recursive**: its rules lead nowhere back, and none leads to the
root. -/
theorem Emitter.AtRest.not_leftRecursive (h : e.AtRest shapes) (hroot : e.root = some body)
    (hw : e.Written body) (n : Nat) (name : String) :
    ¬ TransGen (LeftCorner (loosenedRules (e.grammarRules n))) name name := by
  have hneat := h.neat
  refine acyclic_of_new (leads_of_leftCorner hroot n) hneat.acyclic (fun t ht hpath => ?_) name
  have ht := namesIn_padded hw.known n t (Body.heads_subset_names _ ht)
  exact hneat.named.root_notMem (h.mem_keys (hneat.knows_of_reaches ht hpath))

end

/-- **No left recursion, and no false alarm.** If a schema can be lowered, no shape begins with
itself, and no rule of the grammar is its own left corner, directly or through others. If it is
refused because a definition refers back to itself, then the reference to this definition begins
with itself. -/
theorem not_leftRecursive_grammarText (s : Schema) (external : Assoc Schema) (options : Options) :
    (∀ lowered, lower s external options.layout = .ok lowered →
      lowered.shapes.Acyclic ∧
      ∃ grammar rules, grammarText s external options = .ok grammar ∧
        readGrammar grammar = some rules ∧ ∀ name, ¬ TransGen (LeftCorner rules) name name) ∧
    ∀ name, lower s external options.layout = .error (.unsupported (.selfReference name)) →
      ((Lowering.document s external options.layout).run {}).2.shapes.LeadsBack name := by
  refine ⟨fun lowered h => ⟨(ready_lower h).1.acyclic, ?_⟩, fun name h => leadsBack_of_lower h⟩
  obtain ⟨e, body, -, htext, hrest, hroot, hw⟩ := exists_grammarText h
  obtain ⟨hreadable, hclosed⟩ := hrest.grammarRules hroot hw options.trailingNewLines
  exact ⟨_, _, htext, readGrammar_rulesText (List.cons_ne_nil _ _) hreadable hclosed.distinct,
    hrest.not_leftRecursive hroot hw options.trailingNewLines⟩

/-- A choice between itself and a number. -/
def circularSchema : Schema :=
  { reference := some "#/$defs/loop"
    definitions := some [("loop",
      { anyOf := some [{ reference := some "#/$defs/loop" }, { types := some (.one .number) }] })] }

theorem lower_circularSchema :
    lower circularSchema [] ⟨true, 4, 0⟩ = .error (.unsupported (.selfReference "loop")) := by
  rfl

/-- Events go on after the date, and the choice begins with itself. -/
theorem not_leftRecursive_eventSchema :
    (∃ lowered, lower eventSchema [] ⟨true, 4, 0⟩ = .ok lowered ∧ lowered.shapes.Acyclic ∧
      ∃ grammar rules, grammarText eventSchema [] {} = .ok grammar ∧
        readGrammar grammar = some rules ∧ ∀ name, ¬ TransGen (LeftCorner rules) name name) ∧
    lower circularSchema [] ⟨true, 4, 0⟩ = .error (.unsupported (.selfReference "loop")) ∧
    ((Lowering.document circularSchema [] ⟨true, 4, 0⟩).run {}).2.shapes.LeadsBack "loop" := by
  obtain ⟨lowered, hlower⟩ : ∃ lowered, lower eventSchema [] ⟨true, 4, 0⟩ = .ok lowered :=
    eq_ok_of_isOk (by decide +kernel)
  have hevent := not_leftRecursive_grammarText eventSchema [] {}
  have hcircular := not_leftRecursive_grammarText circularSchema [] {}
  exact ⟨⟨lowered, hlower, hevent.1 lowered hlower⟩, lower_circularSchema,
    hcircular.2 "loop" lower_circularSchema⟩

end SchemaGrammar
