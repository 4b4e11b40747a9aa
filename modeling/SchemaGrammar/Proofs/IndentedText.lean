import SchemaGrammar.Proofs.LineMargins
import SchemaGrammar.Proofs.ReferenceFree

/-!
# The indented text of an accepted document

With line breaks, an entry stands on a line of its own, indented by its level of nesting. The
grammar has the same level in mind: a list or an object is lowered with a layout, and what is inside
it with the layout one level further in, while the branches of a union and the types of a fragment
stay at the level of the whole. So the table tells, of every shape, the level that a value stands at
there.

It does not where a definition is referred to, as all references share one shape, which is at the
level of the first of them; and it does not inside a value of any form, which is on a single line.
A schema without either has its documents derived as they are pretty-printed, by as many spaces at
each level as the options say, or by a tab.

Spaces are counted with 32 bits, though. Where the spaces of a level are too many for that, the
grammar indents the level by fewer, and a document that reaches the level is only derived with tabs.

## Main definitions

* `Schema.isSpelledOut`: nothing is left to be of any form.
* `Shapes.LaidOut`: a shape, and all it is made of, at the level that they are nested at.
* `Json.Value.reaches`: the levels that a value has an entry at.

## Main results

* `laidOut_lower`: lowering threads the level through.
* `Shapes.suits_of_laidOut`: where the table tells the level, the blanks of that level may be used.
* `mul_lt_of_accepts_indented`: the levels that a document derived with spaces reaches.
* `accepts_indented_of_validateUnder`: which pretty-printed texts of accepted documents the grammar
  derives.
-/

namespace SchemaGrammar

open Json (Value Style)
open Grammar

/-! ## Schemas that are spelled out -/

/-- Whether undeclared members are refused or pass a test. -/
def Additional.isClosed : Additional Bool → Bool
  | .allowed yes => !yes
  | .schema passes => passes

namespace Schema

/-- Whether the parts of values of a type pass a test, and there are no others. -/
def spelledOutAs (p : Parts Bool) : TypeName → Bool
  | .object => (p.properties.all fun e => e.2) && p.additional.all Additional.isClosed
  | .array => p.leading.all id && p.items.any id
  | .string | .number | .integer | .boolean | .null => true

/-- Whether there is something that decides about a value, and the parts that it leads to pass a
test. A reference leads away. -/
def spelledOutBy (p : Parts Bool) : Criterion → Bool
  | .union _ _ => ((p.oneOf.or p.anyOf).getD []).all id
  | .types types => types.all (spelledOutAs p)
  | .constant _ | .enumeration _ => true
  | .reference _ | .anything => false

/-- Whether nothing is left to be of any form: every fragment that is come to has a keyword that
decides about its values, lists say what their items are, and no object has arbitrary members. -/
def isSpelledOut : Schema → Bool :=
  fold fun s p => spelledOutBy p s.criterion

section

variable {s : Schema} (h : s.isSpelledOut = true)

theorem isSpelledOut_eq (s : Schema) :
    s.isSpelledOut = spelledOutBy (s.parts.map isSpelledOut) s.criterion := by
  rw [isSpelledOut, fold_eq]

include h

theorem isSpelledOut_of_mem_branches {placed : Nat → PlaceStep} {branches : List Schema}
    (hc : s.criterion = .union placed branches) : ∀ b ∈ branches, b.isSpelledOut = true := by
  have hbranches : s.oneOf.or s.anyOf = some branches := by
    unfold criterion at hc
    split at hc <;> cases hc <;> simp_all
  have hparts : ((s.parts.map isSpelledOut).oneOf.or (s.parts.map isSpelledOut).anyOf) =
      some (branches.map isSpelledOut) := by
    change (s.oneOf.map _).or (s.anyOf.map _) = _
    rw [← Option.map_or, hbranches, Option.map_some]
  rw [isSpelledOut_eq, hc, spelledOutBy, hparts] at h
  simpa using h

theorem spelledOutAs_of_mem_types {types : List TypeName} (hc : s.criterion = .types types) :
    ∀ type ∈ types, spelledOutAs (s.parts.map isSpelledOut) type = true := by
  rw [isSpelledOut_eq, hc] at h
  exact List.all_eq_true.mp h

end

section

variable {s : Schema}

theorem spelledOutAs_object (h : spelledOutAs (s.parts.map isSpelledOut) .object = true) :
    (∀ e ∈ s.declared, e.2.isSpelledOut = true) ∧ s.additional ≠ some (.allowed true) ∧
      ∀ c, s.additional = some (.schema c) → c.isSpelledOut = true := by
  rw [spelledOutAs, properties_map_parts, additional_map_parts, Bool.and_eq_true] at h
  obtain ⟨hproperties, hadditional⟩ := h
  refine ⟨?_, ?_, ?_⟩
  · intro e he
    exact List.all_eq_true.mp hproperties _ (List.mem_map_of_mem he)
  · intro hall
    rw [hall] at hadditional
    cases hadditional
  · intro c hc
    rw [hc] at hadditional
    exact hadditional

theorem spelledOutAs_array (h : spelledOutAs (s.parts.map isSpelledOut) .array = true) :
    (∀ c ∈ s.prefixItems.getD [], c.isSpelledOut = true) ∧
      ∃ c, s.items = some c ∧ c.isSpelledOut = true := by
  rw [spelledOutAs, leading_map_parts, items_map_parts, Bool.and_eq_true] at h
  obtain ⟨hleading, hitems⟩ := h
  refine ⟨?_, ?_⟩
  · intro c hc
    exact List.all_eq_true.mp hleading _ (List.mem_map_of_mem hc)
  · cases hc : s.items with
    | none =>
      rw [hc] at hitems
      cases hitems
    | some c =>
      rw [hc] at hitems
      exact ⟨c, rfl, hitems⟩

/-- What a fragment that is spelled out is made of is so, too. -/
theorem isSpelledOut_of_mem_used {c : Schema} (h : s.isSpelledOut = true) (hused : c ∈ s.used) :
    c.isSpelledOut = true := by
  cases hc : s.criterion with
  | union placed branches =>
    exact isSpelledOut_of_mem_branches h hc c (used_of_union hc ▸ hused)
  | types types =>
    rw [used_of_types hc] at hused
    obtain ⟨type, htype, hused⟩ := List.mem_flatMap.mp hused
    have hspelled := spelledOutAs_of_mem_types h hc type htype
    cases type with
    | object =>
      obtain ⟨hdeclared, -, hmore⟩ := spelledOutAs_object hspelled
      rcases List.mem_append.mp hused with hused | hused
      · obtain ⟨e, he, rfl⟩ := List.mem_map.mp hused
        exact hdeclared e he
      · exact hmore c (additional_eq_of_mem hused)
    | array =>
      obtain ⟨hleading, item, hitem, hspelled⟩ := spelledOutAs_array hspelled
      rcases List.mem_append.mp hused with hused | hused
      · exact hleading c hused
      · cases hitem.symm.trans (Option.mem_toList.mp hused)
        exact hspelled
    | _ => cases hused
  | _ =>
    rw [used, hc] at hused
    cases hused

end

end Schema

/-! ## Shapes at their level -/

/-- A shape and all it is made of have the layouts of the level that they are nested at. A shape
without a layout is at every level; shapes of any form and references are at none. -/
inductive Shapes.LaidOut (shapes : Shapes) : Layout → ShapeId → Prop
  | terminal {layout : Layout} {id : ShapeId} {t : Terminal}
      (hget : shapes.get? id = some (.terminal t)) : LaidOut shapes layout id
  | enumeration {layout : Layout} {id : ShapeId} {members : List ShapeId}
      (hget : shapes.get? id = some (.enumeration members)) : LaidOut shapes layout id
  | union {layout : Layout} {id : ShapeId} {members : List ShapeId}
      (hget : shapes.get? id = some (.union members))
      (h : ∀ m ∈ members, LaidOut shapes layout m) : LaidOut shapes layout id
  | container {layout : Layout} {id : ShapeId} {shape : Shape}
      (hget : shapes.get? id = some shape) (hlayout : shape.layout? = some layout)
      (h : ∀ p ∈ shape.parts, LaidOut shapes layout.descend p) : LaidOut shapes layout id

namespace Shapes.LaidOut

variable {shapes shapes' : Shapes} {layout : Layout} {id : ShapeId}

theorem mono (h : shapes.LaidOut layout id) (hk : shapes.Keeps shapes') :
    shapes'.LaidOut layout id := by
  induction h with
  | terminal hget => exact .terminal (hk _ _ hget (by simp))
  | enumeration hget => exact .enumeration (hk _ _ hget (by simp))
  | union hget _ ih => exact .union (hk _ _ hget (by simp)) ih
  | container hget hlayout _ ih =>
    refine .container (hk _ _ hget ?_) hlayout ih
    rintro name rfl
    cases hlayout

/-- What a shape at its level can be. -/
theorem cases_of_get? (h : shapes.LaidOut layout id) {shape : Shape}
    (hget : shapes.get? id = some shape) :
    (∃ t, shape = .terminal t) ∨ (∃ members, shape = .enumeration members) ∨
      (∃ members, shape = .union members ∧ ∀ m ∈ members, shapes.LaidOut layout m) ∨
      shape.layout? = some layout ∧ ∀ p ∈ shape.parts, shapes.LaidOut layout.descend p := by
  cases h with
  | terminal hget' => exact .inl ⟨_, Option.some.inj (hget.symm.trans hget')⟩
  | enumeration hget' => exact .inr (.inl ⟨_, Option.some.inj (hget.symm.trans hget')⟩)
  | union hget' hmembers =>
    exact .inr (.inr (.inl ⟨_, Option.some.inj (hget.symm.trans hget'), hmembers⟩))
  | container hget' hlayout hparts =>
    cases hget.symm.trans hget'
    exact .inr (.inr (.inr ⟨hlayout, hparts⟩))

/-- A list or an object has the layout of its level, and its parts that of the next. -/
theorem of_layout? (h : shapes.LaidOut layout id) {shape : Shape} {layout' : Layout}
    (hget : shapes.get? id = some shape) (hlayout : shape.layout? = some layout') :
    layout' = layout ∧ ∀ p ∈ shape.parts, shapes.LaidOut layout.descend p := by
  obtain ⟨t, rfl⟩ | ⟨members, rfl⟩ | ⟨members, rfl, -⟩ | ⟨hlayout', hparts⟩ := h.cases_of_get? hget
  · cases hlayout
  · cases hlayout
  · cases hlayout
  · exact ⟨Option.some.inj (hlayout.symm.trans hlayout'), hparts⟩

end Shapes.LaidOut

/-! ## Lowering -/

namespace Lowering

/-- What is spelled out is lowered at its level. -/
def levelAccount : Account Unit where
  inv _ := True
  grows st st' := st.shapes.Keeps st'.shapes
  refl _ := .refl _
  trans h h' := fun id shape hget hopen => h' id shape (h id shape hget hopen) hopen
  inner _ _ := ()
  ready _ _ t _ _ _ := t.isSpelledOut = true
  inside _ _ t _ _ _ := t.isSpelledOut = true
  made _ _ layout x st id := x ≠ .free ∧ st.shapes.LaidOut layout id
  part _ _ layout x st id := x ≠ .free ∧ st.shapes.LaidOut layout id
  flaw _ _ _ _ := True

/-- Nothing that is spelled out has parts of any form. -/
theorem ne_free_of_formed {t : Schema} {layout : Layout} {st : Lowering} {x : Aspect}
    {shape : Shape} (hspelled : t.isSpelledOut = true)
    (h : levelAccount.Formed () t layout st x shape) : x ≠ .free := by
  rintro rfl
  cases h with
  | hole hc htype hopen =>
    have htypes := Schema.spelledOutAs_of_mem_types hspelled hc _ htype
    rcases hopen with ⟨rfl, hmore⟩ | ⟨rfl, hitems⟩
    · exact (Schema.spelledOutAs_object htypes).2.1 hmore
    · obtain ⟨-, c, hc, -⟩ := Schema.spelledOutAs_array htypes
      cases hitems.symm.trans hc

/-- A shape whose parts are at their level is at its own. -/
theorem laidOut_of_formed {t : Schema} {layout : Layout} {st : Lowering} {x : Aspect}
    {shape : Shape} (hspelled : t.isSpelledOut = true)
    (h : levelAccount.Formed () t layout st x shape) :
    Shapes.LaidOut (st.shapes.push shape).2 layout st.shapes.size := by
  have hget := Shapes.get?_push_self st.shapes shape
  have hparts : ∀ {γ : Type} {list : List γ} {members : List ShapeId} {inner : Layout}
      {P : γ → Prop}, List.Forall₂ (fun c id => P c ∧ st.shapes.LaidOut inner id) list members →
      ∀ id ∈ members, Shapes.LaidOut (st.shapes.push shape).2 inner id := by
    intro γ list members inner P hmembers id hid
    obtain ⟨_, -, -, hlaid⟩ := exists_mem_left hmembers hid
    exact hlaid.mono (grows_push st shape).keeps
  have hfree := ne_free_of_formed hspelled h
  cases h with
  | literal | string | number | integer | boolean | null => exact .terminal hget
  | enumeration => exact .enumeration hget
  | union _ _ hmembers => exact .union hget (hparts hmembers)
  | types _ hmembers => exact .union hget (hparts hmembers)
  | anything hc =>
    rw [Schema.isSpelledOut_eq, hc] at hspelled
    cases hspelled
  | hole => exact absurd rfl hfree
  | @object properties extra _ hproperties hextra =>
    refine .container hget rfl (List.forall_mem_append.mpr
      ⟨List.forall_mem_map.mpr fun p hp => ?_, fun id hid => ?_⟩)
    · obtain ⟨_, -, -, -, -, hlaid⟩ := exists_mem_left hproperties hp
      exact hlaid.mono (grows_push st _).keeps
    · cases Option.mem_toList.mp hid
      rcases hextra with ⟨-, hne, -⟩ | ⟨_, -, -, hlaid⟩
      · exact absurd rfl hne
      · exact hlaid.mono (grows_push st _).keeps
  | array _ hleading hitems =>
    refine .container hget rfl (List.forall_mem_append.mpr
      ⟨hparts hleading, List.forall_mem_singleton.mpr ?_⟩)
    rcases hitems with ⟨-, hne, -⟩ | ⟨_, -, -, hlaid⟩
    · exact absurd rfl hne
    · exact hlaid.mono (grows_push st _).keeps

theorem lawful_levelAccount (follow : String → Definition → Layout → Scope → LowerM ShapeId) :
    levelAccount.Lawful follow where
  part_of_made h := h
  part_mono _ hk h := ⟨h.1, h.2.mono hk⟩
  inside_mono _ _ h := h
  enter _ h := ⟨trivial, .refl _, h⟩
  child h _ _ hused _ := Schema.isSpelledOut_of_mem_used h hused
  push _ h hx := ⟨trivial, (grows_push _ _).keeps, ne_free_of_formed h hx, laidOut_of_formed h hx⟩
  alone h := by
    refine ⟨by simp, ?_⟩
    rcases h with ⟨-, h⟩ | ⟨-, -, h⟩ | ⟨-, h⟩
    · exact h.2
    · exact h.2
    · exact h.2
  own _ _ := trivial
  lift _ _ := trivial
  reference _ h hc := by
    change Schema.isSpelledOut _ = true at h
    rw [Schema.isSpelledOut_eq, hc] at h
    cases h

end Lowering

/-- **Lowering threads the level through.** The shapes of a schema that is spelled out have the
layouts of the levels that they are nested at. -/
theorem laidOut_lower {s : Schema} {external : Assoc Schema} {layout : Layout} {lowered : Lowered}
    (hspelled : s.isSpelledOut = true) (h : lower s external layout = .ok lowered) :
    lowered.shapes.LaidOut layout lowered.root := by
  obtain ⟨root, st, hrun, rfl⟩ := lower_inv h
  have hready : Lowering.levelAccount.ready () [] s layout (Scope.ofExternal external)
      { registry := ScopeRegistry.declare {} (Scope.ofExternal external) } := hspelled
  have hfold := (Lowering.lawful_levelAccount
    (Lowering.follow (s.definitionTotal external))).runs_fold trivial hready
  exact (hfold.ok hrun).2.2.2

/-! ## Levels -/

namespace Json

/-- Whether a value has an entry at a level of nesting. The value itself is at level zero. -/
def Value.reaches : Nat → Value → Bool
  | 0, _ => true
  | level + 1, .array items => items.any (reaches level)
  | level + 1, .object members => members.any fun m => reaches level m.2
  | _ + 1, _ => false

namespace Style

variable (style : Style) {ws : List (List Char)}

/-- The blanks of a style on some levels, and none on the others. -/
def onLevels (p : Nat → Bool) : Style :=
  { style with gap := fun depth => if p depth then style.gap depth else [] }

theorem gap_onLevels (p : Nat → Bool) (depth : Nat) :
    (style.onLevels p).gap depth = if p depth then style.gap depth else [] := rfl

theorem bracketed_congr {style style' : Style} {depth : Nat}
    (h : ws ≠ [] → style'.gap depth = style.gap depth ∧
      style'.gap (depth + 1) = style.gap (depth + 1)) (opening closing : String) :
    style'.bracketed depth opening closing ws = style.bracketed depth opening closing ws := by
  cases ws with
  | nil => rfl
  | cons w ws =>
    obtain ⟨houter, hinner⟩ := h (List.cons_ne_nil w ws)
    rw [bracketed_cons, bracketed_cons, houter, hinner]

/-- Every entry of a row follows the blanks before it. -/
theorem exists_intercalate_eq (gap : List Char) {w : List Char} (h : w ∈ ws) :
    ∃ before after, gap ++ List.intercalate (',' :: gap) ws = before ++ gap ++ w ++ after := by
  induction ws with
  | nil => cases h
  | cons first ws ih =>
    rcases List.mem_cons.mp h with rfl | h
    · cases ws with
      | nil => exact ⟨[], [], by simp⟩
      | cons next ws =>
        refine ⟨[], ',' :: gap ++ List.intercalate (',' :: gap) (next :: ws), ?_⟩
        rw [List.intercalate_cons_cons]
        simp
    · obtain ⟨before, after, heq⟩ := ih h
      obtain ⟨next, ws, rfl⟩ := List.exists_cons_of_ne_nil (List.ne_nil_of_mem h)
      refine ⟨gap ++ first ++ [','] ++ before, after, ?_⟩
      rw [List.intercalate_cons_cons]
      simpa using heq

/-- Every entry between brackets follows the blanks of its level. -/
theorem exists_bracketed_eq {w : List Char} (h : w ∈ ws) (depth : Nat) (opening closing : String) :
    ∃ before after, style.bracketed depth opening closing ws =
      before ++ style.gap (depth + 1) ++ w ++ after := by
  obtain ⟨before, after, heq⟩ := exists_intercalate_eq (style.gap (depth + 1)) h
  obtain ⟨first, ws, rfl⟩ := List.exists_cons_of_ne_nil (List.ne_nil_of_mem h)
  refine ⟨opening.toList ++ before, after ++ style.gap depth ++ closing.toList, ?_⟩
  rw [bracketed_cons, List.append_assoc opening.toList, heq]
  simp

end Style

/-- An entry follows these blanks, somewhere in a text. -/
def EntryAfter (gap w : List Char) : Prop :=
  ∃ before c after, beginsEntry c = true ∧ w = before ++ gap ++ c :: after

theorem EntryAfter.append {gap w : List Char} (h : EntryAfter gap w) (u v : List Char) :
    EntryAfter gap (u ++ w ++ v) := by
  obtain ⟨before, c, after, hc, rfl⟩ := h
  exact ⟨u ++ before, c, after ++ v, hc, by simp⟩

/-- Brackets have an entry one level further in than one of their entries has. -/
theorem entryAfter_bracketed (style : Style) {depth level : Nat} {ws : List (List Char)}
    {w : List Char} (hw : w ∈ ws) (hcons : ∃ c rest, beginsEntry c = true ∧ w = c :: rest)
    (h : level = 0 ∨ EntryAfter (style.gap (depth + 1 + level)) w) (opening closing : String) :
    EntryAfter (style.gap (depth + (level + 1))) (style.bracketed depth opening closing ws) := by
  obtain ⟨before, after, heq⟩ := style.exists_bracketed_eq hw depth opening closing
  rw [heq, ← Nat.add_assoc, Nat.add_right_comm]
  rcases h with rfl | h
  · obtain ⟨c, rest, hc, rfl⟩ := hcons
    exact ⟨before, c, rest ++ after, hc, by simp⟩
  · exact h.append _ _

theorem Style.exists_entry_eq_cons (style : Style) (key : String) (value : List Char) :
    ∃ c rest, beginsEntry c = true ∧ style.entry key value = c :: rest := by
  rw [entry, stringText_toList]
  exact ⟨_, _, by decide, rfl⟩

namespace Value

/-- A text only has the blanks of the levels that its value reaches. -/
theorem written_congr {style style' : Style} (hspace : style'.space = style.space) {depth : Nat}
    {v : Value} (h : ∀ level, v.reaches level = true →
      style'.gap (depth + level) = style.gap (depth + level)) :
    v.written style' depth = v.written style depth := by
  induction hn : v.depth using Nat.strong_induction_on generalizing v depth with
  | _ n ih =>
    -- an entry reaches a level less than the value does, and stands one level further in
    have hinner : ∀ {u : Value}, (∀ level, u.reaches level = true →
        v.reaches (level + 1) = true) → ∀ level, u.reaches level = true →
          style'.gap (depth + 1 + level) = style.gap (depth + 1 + level) := by
      intro u hu level hlevel
      rw [Nat.add_right_comm]
      exact h (level + 1) (hu level hlevel)
    cases v with
    | array items =>
      have hgap := fun u (hu : u ∈ items) => hinner fun level hlevel =>
        List.any_eq_true.mpr ⟨u, hu, hlevel⟩
      have hitems : items.map (written style' (depth + 1)) =
          items.map (written style (depth + 1)) := List.map_congr_left fun u hu =>
        ih u.depth (hn ▸ depth_lt_of_mem_items hu) (hgap u hu) rfl
      rw [written_array, written_array, hitems]
      refine Style.bracketed_congr (fun hne => ⟨h 0 rfl, ?_⟩) _ _
      obtain ⟨u, hu⟩ := List.exists_mem_of_ne_nil items (by simpa using hne)
      exact hgap u hu 0 rfl
    | object members =>
      have hgap := fun m (hm : m ∈ members) => hinner fun level hlevel =>
        List.any_eq_true.mpr ⟨m, hm, hlevel⟩
      have hmembers : members.map (fun m => style'.entry m.1 (m.2.written style' (depth + 1))) =
          members.map fun m => style.entry m.1 (m.2.written style (depth + 1)) := by
        refine List.map_congr_left fun m hm => ?_
        rw [ih m.2.depth (hn ▸ depth_lt_of_mem_members hm) (hgap m hm) rfl, Style.entry, hspace,
          Style.entry]
      rw [written_object, written_object, hmembers]
      refine Style.bracketed_congr (fun hne => ⟨h 0 rfl, ?_⟩) _ _
      obtain ⟨m, hm⟩ := List.exists_mem_of_ne_nil members (by simpa using hne)
      exact hgap m hm 0 rfl
    | _ => rfl

/-- The text of a value may begin an entry. -/
theorem exists_written_eq_cons (style : Style) (depth : Nat) (v : Value) :
    ∃ c rest, beginsEntry c = true ∧ v.written style depth = c :: rest := by
  have hscalar : ∀ {u : Value} {text : String}, u.pieces = [text] → IsValue text.toList →
      ∃ c rest, beginsEntry c = true ∧ u.letters = c :: rest := fun hpieces hvalue =>
    letters_scalar hpieces ▸ exists_cons_of_isValue hvalue
  cases v with
  | null => exact hscalar rfl .null
  | bool b =>
    cases b with
    | false => exact hscalar rfl .false
    | true => exact hscalar rfl .true
  | number n => exact hscalar rfl (.number (Lexeme.isNumber_of_mem n.text_mem))
  | string text => exact hscalar rfl (.string (isString_stringText text))
  | array items =>
    rw [written_array, Style.bracketed]
    split
    · exact ⟨_, _, by decide, rfl⟩
    · exact ⟨_, _, by decide, rfl⟩
  | object members =>
    rw [written_object, Style.bracketed]
    split
    · exact ⟨_, _, by decide, rfl⟩
    · exact ⟨_, _, by decide, rfl⟩

/-- The text of a value has an entry on every level that the value reaches. -/
theorem entryAfter_written (style : Style) {depth level : Nat} {v : Value}
    (h : v.reaches level = true) :
    level = 0 ∨ EntryAfter (style.gap (depth + level)) (v.written style depth) := by
  induction level generalizing v depth with
  | zero => exact .inl rfl
  | succ level ih =>
    cases v with
    | array items =>
      obtain ⟨u, hu, hlevel⟩ := List.any_eq_true.mp h
      rw [written_array]
      exact .inr (entryAfter_bracketed style (List.mem_map_of_mem hu)
        (exists_written_eq_cons style (depth + 1) u) (ih hlevel) _ _)
    | object members =>
      obtain ⟨m, hm, hlevel⟩ := List.any_eq_true.mp h
      have hvalue : level = 0 ∨ EntryAfter (style.gap (depth + 1 + level))
          (m.2.written style (depth + 1)) := ih hlevel
      have hentry : level = 0 ∨ EntryAfter (style.gap (depth + 1 + level))
          (style.entry m.1 (m.2.written style (depth + 1))) := by
        refine hvalue.imp_right fun h => ?_
        simpa [Style.entry] using h.append ((stringText m.1).toList ++ ':' :: style.space) []
      have hmem := List.mem_map_of_mem hm
        (f := fun m => style.entry m.1 (m.2.written style (depth + 1)))
      rw [written_object]
      exact .inr (entryAfter_bracketed style hmem (style.exists_entry_eq_cons _ _) hentry _ _)
    | _ => cases h

end Value

end Json

/-! ## Indentation -/

/-- A level is indented by spaces, if 32 bits can count them. -/
theorem gap_spaces_mem_blanks {pad depth : Nat} (hpad : 0 < pad)
    (h : depth * pad < UInt32.size) :
    (Style.indented (List.replicate pad ' ')).gap depth ∈ Layout.blanks ⟨true, pad, depth⟩ := by
  have hspaces : (List.replicate depth (List.replicate pad ' ')).flatten =
      List.replicate (depth * pad) ' ' := List.flatten_replicate_replicate
  have hpadding : Layout.padding ⟨true, pad, depth⟩ = depth * pad := Layout.padding_eq_of_lt h
  refine Layout.mem_blanks.mpr (.inr ⟨rfl, _, ?_, rfl⟩)
  rw [hspaces, Layout.indentations, hpadding]
  split_ifs with hzero
  · obtain rfl : depth = 0 := (Nat.mul_eq_zero.mp hzero).resolve_right hpad.ne'
    simp
  · exact List.mem_cons_self

/-- A level is indented by a tab. -/
theorem gap_tab_mem_blanks (pad depth : Nat) :
    (Style.indented ['\t']).gap depth ∈ Layout.blanks ⟨true, pad, depth⟩ := by
  refine Layout.mem_blanks.mpr (.inr ⟨rfl, _, ?_, rfl⟩)
  rw [List.flatten_replicate_singleton, Layout.indentations]
  split_ifs
  · exact List.mem_cons_self
  · exact List.mem_cons_of_mem _ List.mem_cons_self

/-- Where the table tells the level, a style may be used that has the blanks of every level. -/
theorem Shapes.suits_of_laidOut (shapes : Shapes) {pad : Nat} {style : Style}
    (hspace : style.space = [' '])
    (hgap : ∀ depth, style.gap depth ∈ Layout.blanks ⟨true, pad, depth⟩) :
    shapes.Suits style fun depth id => shapes.LaidOut ⟨true, pad, depth⟩ id where
  space := .inr hspace
  gaps := by
    intro depth id shape layout hroom hget hlayout
    obtain ⟨rfl, -⟩ := hroom.of_layout? hget hlayout
    exact ⟨hgap (depth + 1), hgap depth⟩
  part := by
    intro depth id shape layout hroom hget hlayout
    exact (hroom.of_layout? hget hlayout).2
  member := by
    intro depth id members hroom hget
    obtain ⟨t, ⟨⟩⟩ | ⟨_, ⟨⟩⟩ | ⟨_, ⟨⟩, hmembers⟩ | ⟨⟨⟩, -⟩ := hroom.cases_of_get? hget
    exact hmembers
  target := by
    intro depth id name target hroom hget
    obtain ⟨t, ⟨⟩⟩ | ⟨_, ⟨⟩⟩ | ⟨_, ⟨⟩, -⟩ | ⟨⟨⟩, -⟩ := hroom.cases_of_get? hget
  free := by
    rintro depth id hroom ⟨layout, hget⟩
    obtain ⟨t, ⟨⟩⟩ | ⟨_, ⟨⟩⟩ | ⟨_, ⟨⟩, -⟩ | ⟨⟨⟩, -⟩ := hroom.cases_of_get? hget

/-! ## Documents -/

/-- The pretty-printed text of a value, indented by `unit` at each level. -/
def Json.Value.prettyText (unit : List Char) (v : Value) : String :=
  String.ofList (v.written (.indented unit) 0)

/-- A document that a grammar accepts with spaces reaches no level whose spaces 32 bits cannot
count. -/
theorem mul_lt_of_accepts_indented {s : Schema} {external : Assoc Schema} {options : Options}
    {grammar : String} {v : Value} {pad level : Nat}
    (h : grammarText s external options = .ok grammar)
    (ha : Accepts grammar (v.prettyText (List.replicate pad ' ')))
    (hlevel : v.reaches level = true) : level * pad < UInt32.size := by
  rcases Value.entryAfter_written (.indented (List.replicate pad ' ')) hlevel with rfl | hentry
  · rw [Nat.zero_mul]
    decide
  · obtain ⟨before, c, after, hc, htext⟩ := hentry
    have hgap : (Style.indented (List.replicate pad ' ')).gap (0 + level) =
        '\n' :: List.replicate (level * pad) ' ' := by
      rw [Nat.zero_add]
      exact congrArg ('\n' :: ·) List.flatten_replicate_replicate
    have hline : (v.prettyText (List.replicate pad ' ')).toList =
        before ++ '\n' :: (List.replicate (level * pad) ' ' ++ c :: after) := by
      rw [Value.prettyText, String.toList_ofList, htext, hgap]
      simp
    exact spaces_lt_of_accepts h ha hline hc

/-- Routes: stops by name or by position, and notes. -/
def routeSchema : Schema :=
  { types := some (.one .object)
    properties := some
      [("stops",
        { types := some (.one .array)
          items := some
            { anyOf := some
                [{ types := some (.one .string) },
                 { types := some (.one .object)
                   properties := some
                    [("lat", { types := some (.one .number) }),
                     ("lon", { types := some (.one .number) })] }] } }),
       ("notes",
        { types := some (.one .array), items := some { types := some (.one .string) } })]
    required := some ["stops"] }

/-- A route of two stops, without notes. -/
def routeDocument : Value :=
  .object
    [("stops", .array
      [.string "depot",
       .object [("lat", .number (.integer 1)), ("lon", .number (.real 0.5))]]),
     ("notes", .array [])]

/-- That route on several lines, with what each level is indented by. -/
def routeText (unit : String) : String :=
  "\x7b\n" ++ unit ++ "\"stops\": [\n" ++ unit ++ unit ++ "\"depot\",\n" ++ unit ++ unit ++
    "\x7b\n" ++ unit ++ unit ++ unit ++ "\"lat\": 1,\n" ++ unit ++ unit ++ unit ++
    "\"lon\": 0.5\n" ++ unit ++ unit ++ "\x7d\n" ++ unit ++ "],\n" ++ unit ++
    "\"notes\": []\n\x7d"

theorem prettyText_routeDocument :
    routeDocument.prettyText (List.replicate 2 ' ') = routeText "  " ∧
      routeDocument.prettyText ['\t'] = routeText "\t" := by
  decide

theorem isPlain_routeDocument : routeDocument.isPlain = true := by decide

theorem distinct_routeSchema : routeSchema.isDistinct = true := by decide

theorem referenceFree_routeSchema : routeSchema.isReferenceFree = true := by decide

theorem spelledOut_routeSchema : routeSchema.isSpelledOut = true := by decide

theorem validateUnder_routeDocument :
    validateUnder orderly routeSchema [] routeDocument = .ok () :=
  (eq_ok_of_isOk (by decide)).choose_spec

theorem exists_grammar_routeSchema :
    ∃ grammar, grammarText routeSchema [] { padSpaces := 2 } = .ok grammar :=
  eq_ok_of_isOk (by decide +kernel)

/-- Lists of lists of nulls. -/
def nestedSchema : Schema :=
  { types := some (.one .array)
    items := some
      { types := some (.one .array), items := some { types := some (.one .null) } } }

/-- A null at the second level. -/
def nestedDocument : Value := .array [.array [.null]]

end SchemaGrammar
