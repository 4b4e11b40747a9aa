import SchemaGrammar.Proofs.ShapeGraph

/-!
# The table that lowering builds

Lowering adds shapes at the end of the table, so what a shape is made of comes before it; only the
target of a reference is set later, and may come after. A run that succeeds leaves all older shapes
as they are, gives every new reference its target, and closes no cycle of references and choices. A
run that stops because a definition refers back to itself leaves a table with such a cycle.

Nothing is asked of the document: a reference may mean any definition that the scope has under its
name. What holds of all fragments of the document, `good` below, holds of all definitions in scope.

## Main definitions

* `Shapes.IsBody`, `Shapes.Apart`: bodies of definitions, and that they are parts of no shape.
* `Lowering.Tidy`, `Lowering.Adds`: what holds of the table, and how a run changes it.
* `Lowering.tableAccount`: what a run does, whether it succeeds or not.

## Main results

* `lower_tidy`, `inStyle_lower`: what holds of the table of a schema.
* `leadsBack_of_lower`: a definition that is refused as referring back to itself does.
-/

namespace SchemaGrammar

open Relation (ReflTransGen TransGen)

/-- Whether a leaf is a literal. -/
def Terminal.isLiteral : Terminal → Bool
  | .null | .booleanLiteral _ | .numberLiteral _ | .stringLiteral _ => true
  | _ => false

/-- Enumerations are made of literals, choices of at least two shapes, and the members of an object
are named as the properties of a fragment are. -/
def Shape.Regular (good : Schema → Prop) (shapes : Shapes) : Shape → Prop
  | .enumeration members =>
    ∀ m ∈ members, ∃ t, shapes.get? m = some (.terminal t) ∧ t.isLiteral = true
  | .union members => 2 ≤ members.length
  | .object shape => ∃ t, good t ∧ shape.properties.map Property.key = t.declared.keys
  | _ => True

theorem Shape.Regular.mono {good : Schema → Prop} {shapes shapes' : Shapes}
    (hk : ∀ id t, shapes.get? id = some (.terminal t) → shapes'.get? id = some (.terminal t))
    {shape : Shape} (h : shape.Regular good shapes) : shape.Regular good shapes' := by
  cases shape with
  | enumeration members =>
    intro m hm
    obtain ⟨t, hget, ht⟩ := h m hm
    exact ⟨t, hk m t hget, ht⟩
  | _ => exact h

/-- A reference to `name` that begins with itself. -/
def Shapes.LeadsBack (shapes : Shapes) (name : String) : Prop :=
  ∃ id target, shapes.get? id = some (.reference name (some target)) ∧ TransGen shapes.Begins id id

/-- A reference names something that is in scope, or nothing that is. -/
theorem Scope.found_or_unknown (scope : Scope) (text : String) :
    (∃ name definition, definitionName? text = some name ∧ scope.get? name = some definition) ∨
      ∀ name, definitionName? text = some name → scope.get? name = none := by
  by_cases h : ∃ name definition, definitionName? text = some name ∧
      scope.get? name = some definition
  · exact .inl h
  · exact .inr fun name hname => Option.eq_none_iff_forall_ne_some.mpr
      fun definition hget => h ⟨name, definition, hname, hget⟩

/-- All definitions in scope are good. -/
def Scope.IsGood (good : Schema → Prop) (scope : Scope) : Prop := ∀ e ∈ scope, good e.2.schema

section

variable {good : Schema → Prop} {r : ScopeRegistry} {scope : Scope}

/-- What is visible inside a definition is good. -/
theorem Scope.IsGood.visible (hr : ∀ e ∈ r.entries, Scope.IsGood good e.2)
    (hs : scope.IsGood good) (key : DefinitionKey) : (r.visible scope key).IsGood good :=
  Scope.forall_visible hr hs key

theorem ScopeRegistry.isGood_declare (hr : ∀ e ∈ r.entries, Scope.IsGood good e.2)
    (hs : scope.IsGood good) : ∀ e ∈ (r.declare scope).entries, Scope.IsGood good e.2 :=
  ScopeRegistry.forall_declare hr hs

end

/-- The body of a definition, if it is put together from others: a reference leads to it. -/
def Shapes.IsBody (shapes : Shapes) (id : ShapeId) : Prop :=
  shapes.isComposite id = true ∧
    ∃ other name, shapes.get? other = some (.reference name (some id))

/-- Bodies of definitions come after the references to them and are parts of no shape. -/
structure Shapes.Apart (shapes : Shapes) : Prop where
  later : ∀ {id name target}, shapes.get? id = some (.reference name (some target)) →
    shapes.isComposite target = true → id < target
  unused : ∀ {id shape}, shapes.get? id = some shape → ∀ part ∈ shape.parts, ¬ shapes.IsBody part

section

variable {shapes shapes' : Shapes} {id target : ShapeId} {shape found : Shape} {name : String}

theorem Shapes.isComposite_congr (h : shapes'.get? id = shapes.get? id) :
    shapes'.isComposite id = shapes.isComposite id := by
  rw [isComposite, isComposite, h]

theorem Shapes.get?_push_cases (hget : (shapes.push shape).2.get? id = some found) :
    shapes.get? id = some found ∨ id = shapes.size ∧ found = shape := by
  by_cases hlt : id < shapes.size
  · exact .inl ((get?_push_of_lt hlt shape).symm.trans hget)
  · have hbound := Lowering.lt_size_of_get? hget
    rw [size_push] at hbound
    obtain rfl := Nat.le_antisymm (Nat.lt_succ_iff.mp hbound) (Nat.le_of_not_lt hlt)
    have hself := (get?_push_self shapes shape).symm.trans hget
    exact .inr ⟨rfl, (Option.some.inj hself).symm⟩

theorem Shapes.Apart.push (h : shapes.Apart) (ho : shapes.Ordered)
    (hparts : ∀ part ∈ shape.parts, ¬ shapes.IsBody part)
    (hopen : ∀ name target, shape ≠ .reference name (some target)) :
    (shapes.push shape).2.Apart := by
  have hold : ∀ {id name target},
      (shapes.push shape).2.get? id = some (.reference name (some target)) →
      shapes.get? id = some (.reference name (some target)) ∧
        (shapes.push shape).2.isComposite target = shapes.isComposite target := by
    intro id name target hget
    rcases get?_push_cases hget with hget | ⟨-, heq⟩
    · exact ⟨hget, isComposite_congr (get?_push_of_lt (ho.targets hget) _)⟩
    · exact absurd heq.symm (hopen _ _)
  have hbody : ∀ {id}, (shapes.push shape).2.IsBody id → shapes.IsBody id :=
    fun ⟨hc, other, name, hget⟩ => ⟨(hold hget).2 ▸ hc, other, name, (hold hget).1⟩
  refine ⟨fun hget hc => h.later (hold hget).1 ((hold hget).2 ▸ hc), fun hget part hpart hb => ?_⟩
  rcases get?_push_cases hget with hget | ⟨-, rfl⟩
  · exact h.unused hget part hpart (hbody hb)
  · exact hparts part hpart (hbody hb)

/-- A body is given to a reference that comes before it, and is no part so far. -/
theorem Shapes.Apart.setTarget (h : shapes.Apart)
    (hopen : shapes.get? id = some (.reference name none))
    (htarget : shapes.isComposite target = true → id < target ∧
      ∀ {other shape}, shapes.get? other = some shape → target ∉ shape.parts) :
    (shapes.setTarget id target).Apart := by
  have hsame : ∀ other, (shapes.setTarget id target).isComposite other =
      shapes.isComposite other := by
    intro other
    by_cases heq : other = id
    · subst heq
      simp [isComposite, hopen, Lowering.get?_setTarget_self hopen target, Shape.isComposite]
    · exact isComposite_congr (Lowering.get?_setTarget_of_ne heq target)
  refine ⟨fun hget hc => ?_, fun {other shape} hget part hpart hb => ?_⟩
  · rw [hsame] at hc
    rcases get?_setTarget_cases hopen hget with ⟨-, hget⟩ | ⟨rfl, heq⟩
    · exact h.later hget hc
    · cases heq
      exact (htarget hc).1
  · obtain ⟨hc, ref, text, href⟩ := hb
    rw [hsame] at hc
    have hshape : shapes.get? other = some shape := by
      rcases get?_setTarget_cases hopen hget with ⟨-, hget⟩ | ⟨-, rfl⟩
      · exact hget
      · exact absurd hpart List.not_mem_nil
    rcases get?_setTarget_cases hopen href with ⟨-, href⟩ | ⟨rfl, heq⟩
    · exact h.unused hshape part hpart ⟨hc, ref, text, href⟩
    · cases heq
      exact (htarget hc).2 hshape hpart

end

namespace Lowering

/-- A table that is in order and in one style, together with what is known of definitions. -/
structure Tidy (good : Schema → Prop) (style : Layout) (st : Lowering) : Prop where
  ordered : st.shapes.Ordered
  inStyle : st.shapes.InStyle style
  regular : ∀ {id shape}, st.shapes.get? id = some shape → shape.Regular good st.shapes
  acyclic : st.shapes.Acyclic
  apart : st.shapes.Apart
  known : ∀ {key id}, (key, id) ∈ st.references → ∃ name target,
    st.shapes.get? id = some (.reference name target)
  scopes : ∀ e ∈ st.registry.entries, Scope.IsGood good e.2

/-- Older shapes stay as they are, and newer references have their targets. -/
structure Adds (st st' : Lowering) : Prop where
  le : st.shapes.size ≤ st'.shapes.size
  kept : ∀ {id}, id < st.shapes.size → st'.shapes.get? id = st.shapes.get? id
  settled : ∀ {id name}, st.shapes.size ≤ id → st'.shapes.get? id ≠ some (.reference name none)

section

variable {good : Schema → Prop} {style : Layout} {st st' st'' : Lowering}

theorem Adds.of_shapes_eq (h : st'.shapes = st.shapes) : Adds st st' := by
  refine ⟨h ▸ le_rfl, fun _ => h ▸ rfl, fun hid hget => ?_⟩
  rw [h] at hget
  exact absurd (lt_size_of_get? hget) (Nat.not_lt.mpr hid)

theorem Adds.refl (st : Lowering) : Adds st st := .of_shapes_eq rfl

theorem Adds.trans (h : Adds st st') (h' : Adds st' st'') : Adds st st'' := by
  refine ⟨h.le.trans h'.le, fun hid => (h'.kept (hid.trans_le h.le)).trans (h.kept hid),
    fun {id name} hid hget => ?_⟩
  by_cases hlt : id < st'.shapes.size
  · exact h.settled hid ((h'.kept hlt).symm.trans hget)
  · exact h'.settled (Nat.le_of_not_lt hlt) hget

theorem Adds.get? (h : Adds st st') {id : ShapeId} {shape : Shape}
    (hget : st.shapes.get? id = some shape) : st'.shapes.get? id = some shape :=
  (h.kept (lt_size_of_get? hget)).trans hget

/-! ## One more shape -/

/-- The position of a shape that may become a part of others. -/
structure Present (st : Lowering) (id : ShapeId) : Prop where
  lt : id < st.shapes.size
  free : ¬ st.shapes.IsBody id

/-- The result of a run: if it is put together from others, it was added last. -/
structure Made (st : Lowering) (id : ShapeId) : Prop extends Present st id where
  last : st.shapes.isComposite id = true → id + 1 = st.shapes.size

/-- What is there stays free: later references lead to later bodies. -/
theorem Present.mono {id : ShapeId} (h : Present st id) (hst : Tidy good style st')
    (ha : Adds st st') : Present st' id := by
  refine ⟨h.lt.trans_le ha.le, ?_⟩
  rintro ⟨hc, other, name, hget⟩
  refine h.free ⟨Shapes.isComposite_congr (ha.kept h.lt) ▸ hc, other, name, ?_⟩
  exact (ha.kept ((hst.apart.later hget hc).trans h.lt)).symm.trans hget

theorem made_of_get? {id : ShapeId} {shape : Shape} (h : st.shapes.get? id = some shape)
    (hs : shape.isComposite = false) : Made st id := by
  have hc : st.shapes.isComposite id = false := by
    simpa [Shapes.isComposite, h] using hs
  refine ⟨⟨lt_size_of_get? h, fun hb => ?_⟩, fun hc' => ?_⟩
  · exact Bool.false_ne_true (hc.symm.trans hb.1)
  · exact absurd (hc.symm.trans hc') Bool.false_ne_true

/-- What is asked of a new shape. -/
structure Fits (good : Schema → Prop) (style : Layout) (st : Lowering) (shape : Shape) : Prop where
  parts : ∀ part ∈ shape.parts, Present st part
  regular : shape.Regular good st.shapes
  wellFormed : shape.WellFormed
  styled : shape.Styled style

theorem fits_leaf {shape : Shape} (hparts : shape.parts = [])
    (hregular : shape.Regular good st.shapes) (hw : shape.WellFormed) (hs : shape.Styled style) :
    Fits good style st shape :=
  ⟨hparts ▸ fun _ h => absurd h List.not_mem_nil, hregular, hw, hs⟩

/-- A new shape keeps the table in order if what it is made of is there. -/
theorem Tidy.push (hst : Tidy good style st) {shape : Shape} (hf : Fits good style st shape)
    (hopen : ∀ name target, shape ≠ .reference name (some target)) :
    Tidy good style { st with shapes := (st.shapes.push shape).2 } := by
  have hordered : (st.shapes.push shape).2.Ordered := by
    refine ⟨fun hget => ?_, fun hget => ?_⟩
    · rcases Shapes.get?_push_cases hget with hget | ⟨rfl, rfl⟩
      · exact hst.ordered.parts hget
      · exact fun part hpart => (hf.parts part hpart).lt
    · rw [Shapes.size_push]
      rcases Shapes.get?_push_cases hget with hget | ⟨rfl, heq⟩
      · exact (hst.ordered.targets hget).trans (Nat.lt_succ_self _)
      · exact absurd heq.symm (hopen _ _)
  have hold : ∀ {id found}, st.shapes.get? id = some found →
      (st.shapes.push shape).2.get? id = some found := fun hget =>
    (Shapes.get?_push_of_lt (lt_size_of_get? hget) shape).trans hget
  refine ⟨hordered, hst.inStyle.push hf.wellFormed hf.styled, fun hget => ?_,
    hst.acyclic.push hst.ordered hordered hopen,
    hst.apart.push hst.ordered (fun part hpart => (hf.parts part hpart).free) hopen, fun hm => ?_,
    hst.scopes⟩
  · rcases Shapes.get?_push_cases hget with hget | ⟨-, rfl⟩
    · exact (hst.regular hget).mono fun _ _ => hold
    · exact hf.regular.mono fun _ _ => hold
  · obtain ⟨name, target, hget⟩ := hst.known hm
    exact ⟨name, target, hold hget⟩

/-- The new shape is the last one. -/
theorem Tidy.made_push (hst : Tidy good style st) {shape : Shape} (hf : Fits good style st shape)
    (hshape : ∀ name target, shape ≠ .reference name target) :
    Tidy good style { st with shapes := (st.shapes.push shape).2 } ∧
      Adds st { st with shapes := (st.shapes.push shape).2 } ∧
      Made { st with shapes := (st.shapes.push shape).2 } st.shapes.size := by
  have hadds : Adds st { st with shapes := (st.shapes.push shape).2 } := by
    refine ⟨(Nat.le_succ _).trans_eq (Shapes.size_push _ _).symm,
      fun hid => Shapes.get?_push_of_lt hid shape, fun {id name} hid hget => ?_⟩
    rcases Shapes.get?_push_cases hget with hget | ⟨-, heq⟩
    · exact absurd (lt_size_of_get? hget) (Nat.not_lt.mpr hid)
    · exact hshape name none heq.symm
  refine ⟨hst.push hf fun name target => hshape name (some target), hadds,
    ⟨lt_size_of_get? (Shapes.get?_push_self st.shapes shape), ?_⟩,
    fun _ => (Shapes.size_push _ _).symm⟩
  -- no reference leads to a shape that was not there
  rintro ⟨-, other, name, hget⟩
  rcases Shapes.get?_push_cases hget with hget | ⟨-, heq⟩
  · exact absurd (hst.ordered.targets hget) (Nat.lt_irrefl _)
  · exact hshape name _ heq.symm

/-! ## The account of a table -/

/-- What is made for a literal is one. -/
def Spells (x : Aspect) (st : Lowering) (id : ShapeId) : Prop :=
  ∀ value, x = .literal value →
    ∃ t, st.shapes.get? id = some (.terminal t) ∧ t.isLiteral = true

/-- The table is tidy and grows; a run that refuses a definition for referring back to itself leaves
a table in which it does. -/
def tableAccount (good : Schema → Prop) (style : Layout) : Account Unit where
  inv := Tidy good style
  grows := Adds
  refl := .refl
  trans := .trans
  inner _ _ := ()
  ready _ _ t layout scope _ := good t ∧ layout.style = style ∧ Scope.IsGood good scope
  inside _ _ t layout scope _ := good t ∧ layout.style = style ∧ Scope.IsGood good scope
  made _ _ _ x st id := Made st id ∧ Spells x st id
  part _ _ _ x st id := Present st id ∧ Spells x st id
  flaw _ _ e st := ∀ name, e = .unsupported (.selfReference name) → st.shapes.LeadsBack name

theorem isLiteral_ofLiteral {value : Json.Value} {t : Terminal}
    (h : Terminal.ofLiteral value = .ok t) : t.isLiteral = true := by
  cases value <;> cases h <;> rfl

section

variable {t : Schema} {layout : Layout} {x : Aspect} {shape : Shape}
  (h : (tableAccount good style).Formed () t layout st x shape)

include h

theorem spells_of_formed :
    Spells x { st with shapes := (st.shapes.push shape).2 } st.shapes.size := by
  rintro value rfl
  cases h with
  | literal hterminal =>
    exact ⟨_, Shapes.get?_push_self st.shapes _, isLiteral_ofLiteral hterminal⟩

/-- A shape that is made of its parts fits. -/
theorem fits_of_formed (hgood : good t) (hl : layout.style = style) : Fits good style st shape := by
  have hparts : ∀ {γ : Type} {list : List γ} {members : List ShapeId}
      {R : γ → ShapeId → Prop}, List.Forall₂ (fun c id => Present st id ∧ R c id) list members →
      ∀ id ∈ members, Present st id := by
    intro γ list members R hmembers id hid
    obtain ⟨_, -, hp, -⟩ := exists_mem_left hmembers hid
    exact hp
  have hinner := layout.style_descend.trans hl
  cases h with
  | literal hterminal => exact fits_leaf rfl trivial (isValue_ofLiteral hterminal) trivial
  | string hterminal => exact fits_leaf rfl trivial (wellFormed_stringTerminal hterminal) trivial
  | number | integer | boolean | null => exact fits_leaf rfl trivial ⟨trivial, rfl⟩ trivial
  | anything => exact fits_leaf rfl trivial trivial hl
  | hole => exact fits_leaf rfl trivial trivial hinner
  | enumeration hc hne hmembers =>
    refine ⟨hparts hmembers, fun id hid => ?_, ?_, trivial⟩
    · obtain ⟨value, -, -, hspells⟩ := exists_mem_left hmembers hid
      exact hspells value rfl
    · rintro rfl
      exact hne (List.forall₂_nil_right_iff.mp hmembers)
  | union hc hclash hmembers hlen =>
    exact ⟨hparts hmembers, hlen, List.ne_nil_of_length_pos (Nat.zero_lt_of_lt hlen), trivial⟩
  | types hc hmembers hlen =>
    exact ⟨hparts hmembers, hlen, List.ne_nil_of_length_pos (Nat.zero_lt_of_lt hlen), trivial⟩
  | @object properties extra _ hproperties hextra =>
    refine ⟨List.forall_mem_append.mpr ⟨List.forall_mem_map.mpr fun p hp => ?_, fun id hid => ?_⟩,
      ⟨t, hgood, map_key_eq hproperties⟩, trivial, hl⟩
    · obtain ⟨_, -, -, -, hpresent, -⟩ := exists_mem_left hproperties hp
      exact hpresent
    · cases Option.mem_toList.mp hid
      rcases hextra with ⟨-, hpresent, -⟩ | ⟨_, -, hpresent, -⟩
      · exact hpresent
      · exact hpresent
  | @array leading items hs hleading hitems =>
    refine ⟨List.forall_mem_append.mpr ⟨hparts hleading, List.forall_mem_singleton.mpr ?_⟩,
      trivial, ⟨Nat.le_max_right _ _, fun m hm => ?_⟩, hl⟩
    · rcases hitems with ⟨-, hpresent, -⟩ | ⟨_, -, hpresent, -⟩
      · exact hpresent
      · exact hpresent
    · obtain ⟨most, hmost, rfl⟩ := Option.mem_map.mp hm
      refine max_le_max ?_ le_rfl
      cases hmin : t.minItems with
      | none => exact Nat.zero_le _
      | some least => exact Schema.supports_array_iff.mp hs least hmin most hmost

theorem ne_reference_of_formed (name : String) (target : Option ShapeId) :
    shape ≠ .reference name target := by
  rintro rfl
  cases h

end

/-! ## References -/

/-- A definition has a shape that waits for its target. -/
theorem Tidy.define (hst : Tidy good style st) (key : DefinitionKey) (name : String) :
    Tidy good style (st.define key name) := by
  have hfits : Fits good style st (.reference name none) :=
    fits_leaf rfl trivial trivial trivial
  have hpush := hst.push hfits (by simp)
  refine ⟨hpush.ordered, hpush.inStyle, hpush.regular, hpush.acyclic, hpush.apart, fun hm => ?_,
    hst.scopes⟩
  rcases List.mem_cons.mp hm with heq | hm
  · cases heq
    exact ⟨name, none, Shapes.get?_push_self st.shapes _⟩
  · exact hpush.known hm

/-- A reference gets its target and closes no cycle. -/
theorem Tidy.setTarget (hst : Tidy good style st) {id target : ShapeId} {name : String}
    (hopen : st.shapes.get? id = some (.reference name none)) (htarget : Made st target)
    (hback : ¬ ReflTransGen (st.shapes.setTarget id target).Begins target id) :
    Tidy good style { st with shapes := st.shapes.setTarget id target } := by
  have hapart : st.shapes.isComposite target = true → id < target ∧
      ∀ {other shape}, st.shapes.get? other = some shape → target ∉ shape.parts := by
    intro hc
    have hlast := htarget.last hc
    refine ⟨?_, fun hother hpart => ?_⟩
    · have hne : id ≠ target := by
        rintro rfl
        simp [Shapes.isComposite, hopen, Shape.isComposite] at hc
      have hle := Nat.lt_succ_iff.mp ((lt_size_of_get? hopen).trans_eq hlast.symm)
      exact Nat.lt_of_le_of_ne hle hne
    · have hle := Nat.lt_succ_iff.mp ((lt_size_of_get? hother).trans_eq hlast.symm)
      exact absurd ((hst.ordered.parts hother target hpart).trans_le hle) (Nat.lt_irrefl _)
  refine ⟨hst.ordered.setTarget hopen htarget.lt, hst.inStyle.setTarget id target, fun hget => ?_,
    hst.acyclic.setTarget hopen hback, hst.apart.setTarget hopen hapart, fun hm => ?_, hst.scopes⟩
  · rcases Shapes.get?_setTarget_cases hopen hget with ⟨-, hget⟩ | ⟨-, rfl⟩
    · refine (hst.regular hget).mono fun other t hother => ?_
      have hne : other ≠ id := by
        rintro rfl
        cases hopen.symm.trans hother
      exact (get?_setTarget_of_ne hne target).trans hother
    · trivial
  · obtain ⟨text, found, hget⟩ := hst.known hm
    rename_i other
    by_cases heq : other = id
    · subst heq
      exact ⟨name, _, get?_setTarget_self hopen target⟩
    · exact ⟨text, found, (get?_setTarget_of_ne heq target).trans hget⟩

section

variable {follow : String → Definition → Layout → Scope → LowerM ShapeId} {layout : Layout}
  {scope : Scope} {text : String}

/-- A reference gets its target, and is refused if it refers back to itself. -/
def closeReference (id : ShapeId) (name : String) (target : ShapeId) : LowerM ShapeId := do
  modify fun st => { st with shapes := st.shapes.setTarget id target }
  if refersBack (← get).shapes id target then unsupported (.selfReference name) else return id

theorem run_closeReference (id : ShapeId) (name : String) (target : ShapeId) (st : Lowering) :
    (closeReference id name target).run st =
      (if refersBack (st.shapes.setTarget id target) id target
        then .error (.unsupported (.selfReference name)) else .ok id,
        { st with shapes := st.shapes.setTarget id target }) := by
  change (ite (refersBack (st.shapes.setTarget id target) id target = true)
    (unsupported (.selfReference name)) (pure id) : LowerM ShapeId).run
      { st with shapes := st.shapes.setTarget id target } = _
  split_ifs <;> rfl

theorem adds_setTarget {key : DefinitionKey} {name : String} {target : ShapeId}
    (ha : Adds (st.define key name) st')
    (hclosed : (st'.shapes.setTarget st.shapes.size target).get? st.shapes.size =
      some (.reference name (some target))) :
    Adds st { st' with shapes := st'.shapes.setTarget st.shapes.size target } := by
  have hsize : (st.define key name).shapes.size = st.shapes.size + 1 := Shapes.size_push _ _
  refine ⟨?_, fun {id} hid => ?_, fun {id other} hid hget => ?_⟩
  · have hle := ha.le
    rw [Shapes.size_setTarget]
    omega
  · rw [get?_setTarget_of_ne hid.ne, ha.kept (by omega)]
    exact Shapes.get?_push_of_lt hid _
  · by_cases heq : id = st.shapes.size
    · subst heq
      cases hclosed.symm.trans hget
    · rw [get?_setTarget_of_ne heq] at hget
      exact ha.settled (by omega) hget

/-- The shape of a definition is made after the shape that stands for it. -/
theorem closeReference_spec {key : DefinitionKey} {name : String} {target : ShapeId}
    (hst' : Tidy good style st') (ha : Adds (st.define key name) st') (htarget : Made st' target)
    {outcome : Except CompileError ShapeId}
    (hrun : (closeReference st.shapes.size name target).run st' = (outcome, st'')) :
    outcome = .ok st.shapes.size ∧ Tidy good style st'' ∧ Adds st st'' ∧ Made st'' st.shapes.size ∨
      outcome = .error (.unsupported (.selfReference name)) ∧ st''.shapes.LeadsBack name := by
  have hself : (st.define key name).shapes.get? st.shapes.size = some (.reference name none) :=
    Shapes.get?_push_self st.shapes _
  have hopen := ha.get? hself
  have hordered := hst'.ordered.setTarget hopen htarget.lt
  have hclosed := get?_setTarget_self hopen target
  have hback : refersBack (st'.shapes.setTarget st.shapes.size target) st.shapes.size target =
      true ↔ ReflTransGen (st'.shapes.setTarget st.shapes.size target).Begins target
        st.shapes.size :=
    Shapes.refersBack_iff hordered (htarget.lt.trans_eq (Shapes.size_setTarget _ _ _).symm)
  rw [run_closeReference] at hrun
  obtain ⟨rfl, rfl⟩ := Prod.mk.inj hrun
  split_ifs with hrefers
  · exact .inr ⟨rfl, _, target, hclosed, .head' (.target hclosed) (hback.mp hrefers)⟩
  · exact .inl ⟨rfl, hst'.setTarget hopen htarget fun hpath => hrefers (hback.mpr hpath),
      adds_setTarget ha hclosed, made_of_get? hclosed rfl⟩

theorem reference_unknown
    (h : ∀ name, definitionName? text = some name → scope.get? name = none) :
    reference follow text layout scope = throw (.unresolvedReference text) := by
  rw [reference_eq_referTo, Scope.resolve?_eq_none h, referTo]

/-- What is known of the lowering of definitions. -/
def FollowBuilds (good : Schema → Prop) (style : Layout)
    (follow : String → Definition → Layout → Scope → LowerM ShapeId) : Prop :=
  ∀ st name definition layout scope, good definition.schema → layout.style = style →
    Scope.IsGood good scope → Tidy good style st →
    (tableAccount good style).Runs () definition.schema st (follow name definition layout scope)
      ((tableAccount good style).made () definition.schema layout .whole)

theorem builds_reference (hfollow : FollowBuilds good style follow) {t : Schema}
    (hl : layout.style = style) (hscope : Scope.IsGood good scope) (hst : Tidy good style st) :
    (tableAccount good style).Runs () t st (reference follow text layout scope)
      ((tableAccount good style).made () t layout .whole) := by
  have hspells : ∀ {st id}, Spells .whole st id := fun _ h => by cases h
  rcases scope.found_or_unknown text with ⟨name, definition, hname, hget⟩ | hnone
  · cases hlookup : st.references.lookup (name, definition.place) with
    | some id =>
      obtain ⟨_, _, hid⟩ := hst.known (mem_of_lookup hlookup)
      refine ⟨fun hrun => ?_, fun hrun => ?_⟩
      · rw [reference_known hname hget hlookup] at hrun
        cases hrun
        exact ⟨hst, .refl st, made_of_get? hid rfl, hspells⟩
      · rw [reference_known hname hget hlookup] at hrun
        cases hrun
    | none =>
      have hgood := hscope _ (Assoc.mem_of_get? hget)
      have hbody := hfollow _ name definition layout _ hgood hl
        (hscope.visible hst.scopes (name, definition.place))
        (hst.define (name, definition.place) name)
      refine ⟨fun hrun => ?_, fun hrun => ?_⟩
      · rw [reference_new hname hget hlookup] at hrun
        obtain ⟨target, st₁, hrun₁, hrun⟩ := run_bind_ok hrun
        obtain ⟨hst₁, ha₁, htarget, -⟩ := hbody.ok hrun₁
        rcases closeReference_spec hst₁ ha₁ htarget hrun with ⟨⟨⟩, hst₂, ha₂, hmade⟩ | ⟨⟨⟩, -⟩
        exact ⟨hst₂, ha₂, hmade, hspells⟩
      · rw [reference_new hname hget hlookup] at hrun
        rcases run_bind_error hrun with hrun | ⟨target, st₁, hrun₁, hrun⟩
        · exact hbody.error hrun
        · obtain ⟨hst₁, ha₁, htarget, -⟩ := hbody.ok hrun₁
          rcases closeReference_spec hst₁ ha₁ htarget hrun with ⟨⟨⟩, -⟩ | ⟨⟨⟩, hback⟩
          rintro _ ⟨⟩
          exact hback
  · rw [reference_unknown hnone]
    exact Course.runs_throw fun _ h => by cases h

/-- What is in scope inside a good fragment is good. -/
theorem isGood_entered {t : Schema} {place : Place} (hchild : ∀ e ∈ t.children, good e.2)
    (hst : Tidy good style st) (hscope : Scope.IsGood good scope) :
    Scope.IsGood good (scope.entered place t) ∧
      ∀ e ∈ (st.registry.entered place t scope).entries, Scope.IsGood good e.2 := by
  have hinner : Scope.IsGood good (scope.entered place t) := by
    unfold Scope.entered
    split_ifs
    · exact hscope
    · refine Scope.forall_layer hscope (List.forall_mem_map.mpr fun entry hentry => ?_)
      exact hchild _ (Schema.definition_mem_children hentry)
  refine ⟨hinner, ?_⟩
  unfold ScopeRegistry.entered
  unfold Scope.entered at hinner
  split_ifs at hinner ⊢
  · exact hst.scopes
  · exact ScopeRegistry.isGood_declare hst.scopes hinner

section

variable (hchildren : ∀ t, good t → ∀ e ∈ t.children, good e.2)

include hchildren

theorem lawful_tableAccount (hfollow : FollowBuilds good style follow) :
    (tableAccount good style).Lawful follow where
  part_of_made h := ⟨h.1.toPresent, h.2⟩
  part_mono hst ha h := ⟨h.1.mono hst ha, fun value hvalue => by
    obtain ⟨t, hget, ht⟩ := h.2 value hvalue
    exact ⟨t, ha.get? hget, ht⟩⟩
  inside_mono _ _ h := h
  enter hst h := by
    obtain ⟨hinner, hregistry⟩ := isGood_entered (hchildren _ h.1) hst h.2.2
    exact ⟨⟨hst.ordered, hst.inStyle, hst.regular, hst.acyclic, hst.apart, hst.known, hregistry⟩,
      .of_shapes_eq rfl, h.1, h.2.1, hinner⟩
  child h e he _ hl := ⟨hchildren _ h.1 e he, hl.trans h.2.1, h.2.2⟩
  push hst h hx := by
    obtain ⟨hst', ha, hmade⟩ := hst.made_push (fits_of_formed hx h.1 h.2.1)
      (ne_reference_of_formed hx)
    exact ⟨hst', ha, hmade, spells_of_formed hx⟩
  alone h := by
    refine ⟨?_, fun _ h => by cases h⟩
    rcases h with ⟨-, h⟩ | ⟨-, -, h⟩ | ⟨-, h⟩
    · exact h.1
    · exact h.1
    · exact h.1
  own _ hne := fun name he => absurd he (hne name)
  lift _ h := h
  reference hst h _ := builds_reference hfollow h.2.1 h.2.2 hst

/-- A definition is lowered as a fragment is, by induction over the references that are left to
follow. -/
theorem builds_follow (jumps : Nat) : FollowBuilds good style (Lowering.follow jumps) := by
  induction jumps with
  | zero => exact fun _ _ _ _ _ _ _ _ _ => Course.runs_throw fun _ h => by cases h
  | succ jumps ih =>
    intro st name definition layout scope hgood hl hscope hst
    exact (lawful_tableAccount hchildren ih).runs_fold hst ⟨hgood, hl, hscope⟩

end

end

end

/-- **A document is lowered to a tidy table**, or refused for a definition that leads back to
itself. -/
theorem builds_document {good : Schema → Prop}
    (hchildren : ∀ t, good t → ∀ e ∈ t.children, good e.2) {s : Schema} {external : Assoc Schema}
    (hs : good s) (he : ∀ e ∈ external, good e.2) (layout : Layout) :
    (tableAccount good layout.style).Runs () s {} (document s external layout)
      ((tableAccount good layout.style).made () s layout .whole) := by
  have hempty : ∀ {id : ShapeId} {shape : Shape}, ({} : Shapes).get? id ≠ some shape := by
    intro id shape hget
    exact absurd (lt_size_of_get? hget) (Nat.not_lt_zero _)
  have hscope : Scope.IsGood good (Scope.ofExternal external) := List.forall_mem_map.mpr he
  have hst : Tidy good layout.style
      { registry := ScopeRegistry.declare {} (Scope.ofExternal external) } := by
    refine ⟨⟨fun h => absurd h hempty, fun h => absurd h hempty⟩, fun _ _ h => absurd h hempty,
      fun h => absurd h hempty, fun id hcycle => ?_,
      ⟨fun h => absurd h hempty, fun h => absurd h hempty⟩, fun hm => absurd hm List.not_mem_nil,
      ScopeRegistry.isGood_declare (fun _ h => absurd h List.not_mem_nil) hscope⟩
    have hbegins : ∀ {id other}, ¬ ({} : Shapes).Begins id other := fun hb =>
      absurd (Shapes.lt_size_of_begins hb) (Nat.not_lt_zero _)
    cases hcycle with
    | single hb => exact hbegins hb
    | tail _ hb => exact hbegins hb
  have hready : (tableAccount good layout.style).ready () [] s layout (Scope.ofExternal external)
      { registry := ScopeRegistry.declare {} (Scope.ofExternal external) } := ⟨hs, rfl, hscope⟩
  have hfold := (lawful_tableAccount hchildren (builds_follow hchildren
    (s.definitionTotal external))).runs_fold hst hready
  refine ⟨fun hrun => ?_, hfold.error⟩
  obtain ⟨hst', ha, hmade⟩ := hfold.ok hrun
  have hdeclared : Adds {} { registry := ScopeRegistry.declare {} (Scope.ofExternal external) } :=
    .of_shapes_eq rfl
  exact ⟨hst', hdeclared.trans ha, hmade⟩

end Lowering

/-! ## Whole tables -/

section

variable {s : Schema} {external : Assoc Schema} {layout : Layout}

/-- The table of a schema, if it has one, is tidy, and all its references have their targets. -/
theorem exists_tidy_of_lower (good : Schema → Prop)
    (hchildren : ∀ t, good t → ∀ e ∈ t.children, good e.2) (hs : good s)
    (he : ∀ e ∈ external, good e.2) {lowered : Lowered}
    (h : lower s external layout = .ok lowered) :
    ∃ st, lowered.shapes = st.shapes ∧ Lowering.Tidy good layout.style st ∧
      lowered.root < st.shapes.size ∧
      ∀ id name, st.shapes.get? id ≠ some (.reference name none) := by
  obtain ⟨root, st, hrun, rfl⟩ := lower_inv h
  obtain ⟨ht, ha, hmade, -⟩ := (Lowering.builds_document hchildren hs he layout).ok hrun
  exact ⟨st, rfl, ht, hmade.lt, fun id name => ha.settled (Nat.zero_le id)⟩

/-- What holds of the table of a schema, if it has one. -/
theorem lower_tidy (good : Schema → Prop)
    (hchildren : ∀ t, good t → ∀ e ∈ t.children, good e.2) (hs : good s)
    (he : ∀ e ∈ external, good e.2) {lowered : Lowered}
    (h : lower s external layout = .ok lowered) :
    lowered.shapes.Ordered ∧ lowered.shapes.Acyclic ∧ lowered.root < lowered.shapes.size ∧
      (∀ id name, lowered.shapes.get? id ≠ some (.reference name none)) ∧
      ∀ {id shape}, lowered.shapes.get? id = some shape → shape.Regular good lowered.shapes := by
  obtain ⟨st, heq, ht, hroot, hsettled⟩ := exists_tidy_of_lower good hchildren hs he h
  rw [heq]
  exact ⟨ht.ordered, ht.acyclic, hroot, hsettled, ht.regular⟩

section

variable {lowered : Lowered} (h : lower s external layout = .ok lowered)

include h

theorem inStyle_and_apart_of_lower :
    lowered.shapes.InStyle layout.style ∧ lowered.shapes.Apart := by
  obtain ⟨st, heq, ht, -⟩ := exists_tidy_of_lower (fun _ => True) (fun _ _ _ _ => trivial) trivial
    (fun _ _ => trivial) h
  rw [heq]
  exact ⟨ht.inStyle, ht.apart⟩

/-- **Lowering gives well-formed shapes in the style that it is asked for.** -/
theorem inStyle_lower : lowered.shapes.InStyle layout.style :=
  (inStyle_and_apart_of_lower h).1

theorem wellFormed_lower : lowered.shapes.WellFormed :=
  fun id shape hget => (inStyle_lower h id shape hget).1

end

/-- **A definition that is refused as referring back to itself does**, in the table that was made
until then. -/
theorem leadsBack_of_lower {name : String}
    (h : lower s external layout = .error (.unsupported (.selfReference name))) :
    ((Lowering.document s external layout).run {}).2.shapes.LeadsBack name := by
  obtain ⟨st, hrun⟩ := lower_error_inv h
  have hchildren : ∀ t : Schema, True → ∀ e ∈ t.children, True := fun _ _ _ _ => trivial
  have hback := (Lowering.builds_document hchildren trivial (fun _ _ => trivial) layout).error hrun
    name rfl
  rw [hrun]
  exact hback

end

end SchemaGrammar
