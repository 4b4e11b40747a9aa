import SchemaGrammar.Proofs.LoweredShapes
import SchemaGrammar.Proofs.SchemaMeaning
import SchemaGrammar.Proofs.ShapeMeaning

/-!
# The shapes of a schema

What lowering leaves in the table for a fragment: a shape of the kind that decides about the
fragment, made of shapes that represent the fragments it is made of. A choice among one is that one.
A reference is represented by the shape that stands for the definition it means; that this shape's
target represents the definition is said apart, as the definition may contain the reference.

The relation is the least one with these equations. It stays when shapes are added, and when a
reference that had no target gets one.

## Main definitions

* `Schema.supports`: whether values of a type have a shape, as far as the fragment itself goes.
* `Represents`: a shape represents a fragment, given which shapes stand for definitions.

## Main results

* `represents_iff`, `Represents.induction`: the equations, and induction along them.
* `Represents.mono`: what represents a fragment goes on to do so.
-/

namespace SchemaGrammar

open Json (Value)

/-! ## Lists in step -/

theorem exists_mem_right {α β : Type} {R : α → β → Prop} {l : List α} {l' : List β}
    (h : List.Forall₂ R l l') {a : α} (ha : a ∈ l) : ∃ b ∈ l', R a b := by
  induction h with
  | nil => exact absurd ha List.not_mem_nil
  | cons hab _ ih =>
    rcases List.mem_cons.mp ha with rfl | ha
    · exact ⟨_, List.mem_cons_self, hab⟩
    · obtain ⟨b, hb, hr⟩ := ih ha
      exact ⟨b, List.mem_cons_of_mem _ hb, hr⟩

theorem exists_mem_left {α β : Type} {R : α → β → Prop} {l : List α} {l' : List β}
    (h : List.Forall₂ R l l') {b : β} (hb : b ∈ l') : ∃ a ∈ l, R a b :=
  exists_mem_right h.flip hb

theorem map_key_eq {declared : Assoc Schema} {properties : List Property}
    {R : String × Schema → Property → Prop}
    (h : List.Forall₂ (fun e p => p.key = e.1 ∧ R e p) declared properties) :
    properties.map Property.key = declared.keys := by
  induction h with
  | nil => rfl
  | cons he _ ih => rw [List.map_cons, ih, he.1, Assoc.keys, Assoc.keys, List.map_cons]

/-! ## Shapes and fragments -/

/-- Which shapes stand for definitions, under the names they are referred to by. -/
abbrev Standing := String → Closure → ShapeId → Prop

/-- Whether values of a type have a shape, as far as the fragment itself goes. -/
def Schema.supports (s : Schema) : TypeName → Bool
  | .object => (Lowering.undeclared? s).isNone
  | .array => s.minItems.all fun least => s.maxItems.all (least ≤ ·)
  | .string => (Lowering.stringTerminal s).isOk
  | .number | .integer | .boolean | .null => true

theorem Schema.supports_array_iff {s : Schema} : s.supports .array = true ↔
    ∀ least ∈ s.minItems, ∀ most ∈ s.maxItems, least ≤ most := by
  simp [supports, Option.all_eq_true]

namespace Shapes

/-- The shape at `id` is a choice among `members`. -/
def IsChoice (shapes : Shapes) (id : ShapeId) (members : List ShapeId) : Prop :=
  members = [id] ∨ shapes.get? id = some (.union members)

/-- The shape at `id` is that of a literal. -/
def IsLiteral (shapes : Shapes) (value : Value) (id : ShapeId) : Prop :=
  ∃ t, Terminal.ofLiteral value = .ok t ∧ shapes.get? id = some (.terminal t)

/-- The shape at `id` allows any value. -/
def IsFree (shapes : Shapes) (id : ShapeId) : Prop :=
  ∃ layout, shapes.get? id = some (.anyJson layout)

/-- Shapes stay, up to references that had no target. -/
def Keeps (shapes shapes' : Shapes) : Prop :=
  ∀ id shape, shapes.get? id = some shape → (∀ name, shape ≠ .reference name none) →
    shapes'.get? id = some shape

end Shapes

/-- The shape of undeclared members. -/
def RepresentsMore (shapes : Shapes) (sub : Schema → ShapeId → Prop) :
    Option (Additional Schema) → Option ShapeId → Prop
  | some (.schema c), extra => ∃ id, extra = some id ∧ sub c id
  | some (.allowed true), extra => ∃ id, extra = some id ∧ shapes.IsFree id
  | some (.allowed false), extra => extra = none
  | none, extra => extra = none

/-- The shape of items that are not leading ones. -/
def RepresentsItems (shapes : Shapes) (sub : Schema → ShapeId → Prop) :
    Option Schema → ShapeId → Prop
  | some c, id => sub c id
  | none, id => shapes.IsFree id

/-- The shape of a fragment for one of its types. -/
def RepresentsAs (shapes : Shapes) (sub : Schema → ShapeId → Prop) (s : Schema) :
    TypeName → ShapeId → Prop
  | .object, id => ∃ shape, shapes.get? id = some (.object shape) ∧
      List.Forall₂ (fun e p => p.key = e.1 ∧ p.required = s.isRequired e.1 ∧ sub e.2 p.value)
        s.declared shape.properties ∧
      RepresentsMore shapes sub s.additional shape.additional
  | .array, id => ∃ shape, shapes.get? id = some (.array shape) ∧
      (∀ count, Checking.within shape.least shape.most count = s.admitsCount count) ∧
      List.Forall₂ sub (s.prefixItems.getD []) shape.leading ∧
      RepresentsItems shapes sub s.items shape.items
  | .string, id => ∃ t, Lowering.stringTerminal s = .ok t ∧ shapes.get? id = some (.terminal t)
  | .number, id => shapes.get? id = some (.terminal (.number true))
  | .integer, id => shapes.get? id = some (.terminal (.number false))
  | .boolean, id => shapes.get? id = some (.terminal .boolean)
  | .null, id => shapes.get? id = some (.terminal .null)

/-- The shape of a fragment, given the shapes of the fragments that it is made of. -/
def representsStep (shapes : Shapes) (standing : Standing) (X : Env → Schema → ShapeId → Prop)
    (env : Env) (s : Schema) (id : ShapeId) : Criterion → Prop
  | .reference text => ∃ name c, definitionName? text = some name ∧ env.find? name = some c ∧
      standing name c id
  | .union _ branches => s.clashes = false ∧ ∃ members, shapes.IsChoice id members ∧
      List.Forall₂ (X env) branches members
  | .constant value => shapes.IsLiteral value id
  | .enumeration values => ∃ members, shapes.get? id = some (.enumeration members) ∧
      List.Forall₂ shapes.IsLiteral values members
  | .types types => ∃ members, shapes.IsChoice id members ∧
      List.Forall₂ (fun type m => s.supports type = true ∧ RepresentsAs shapes (X env) s type m)
        types members
  | .anything => shapes.IsFree id

section

variable {shapes shapes' : Shapes} {standing standing' : Standing}
  {sub sub' : Schema → ShapeId → Prop} {X Y : Env → Schema → ShapeId → Prop} {s : Schema}
  {id : ShapeId}

theorem Shapes.Keeps.refl (shapes : Shapes) : shapes.Keeps shapes := fun _ _ h _ => h

theorem Shapes.Keeps.isChoice (hk : shapes.Keeps shapes') {members : List ShapeId}
    (h : shapes.IsChoice id members) : shapes'.IsChoice id members :=
  h.imp_right fun hget => hk _ _ hget (by simp)

theorem Shapes.Keeps.isLiteral (hk : shapes.Keeps shapes') {value : Value}
    (h : shapes.IsLiteral value id) : shapes'.IsLiteral value id := by
  obtain ⟨t, ht, hget⟩ := h
  exact ⟨t, ht, hk _ _ hget (by simp)⟩

theorem Shapes.Keeps.isFree (hk : shapes.Keeps shapes') (h : shapes.IsFree id) :
    shapes'.IsFree id := by
  obtain ⟨layout, hget⟩ := h
  exact ⟨layout, hk _ _ hget (by simp)⟩

theorem RepresentsMore.mono (hk : shapes.Keeps shapes') (h : ∀ c id, sub c id → sub' c id)
    {more : Option (Additional Schema)} {extra : Option ShapeId}
    (hm : RepresentsMore shapes sub more extra) : RepresentsMore shapes' sub' more extra := by
  rcases more with _ | (_ | _) | c
  · exact hm
  · exact hm
  · obtain ⟨id, hid, hfree⟩ := hm
    exact ⟨id, hid, hk.isFree hfree⟩
  · obtain ⟨id, hid, hsub⟩ := hm
    exact ⟨id, hid, h _ _ hsub⟩

theorem RepresentsItems.mono (hk : shapes.Keeps shapes') (h : ∀ c id, sub c id → sub' c id)
    {items : Option Schema} (hi : RepresentsItems shapes sub items id) :
    RepresentsItems shapes' sub' items id := by
  cases items with
  | none => exact hk.isFree hi
  | some c => exact h _ _ hi

theorem RepresentsAs.mono (hk : shapes.Keeps shapes') (h : ∀ c id, sub c id → sub' c id)
    {type : TypeName} (hr : RepresentsAs shapes sub s type id) :
    RepresentsAs shapes' sub' s type id := by
  cases type with
  | object =>
    obtain ⟨shape, hget, hproperties, hmore⟩ := hr
    exact ⟨shape, hk _ _ hget (by simp),
      hproperties.imp fun _ _ hp => ⟨hp.1, hp.2.1, h _ _ hp.2.2⟩, hmore.mono hk h⟩
  | array =>
    obtain ⟨shape, hget, hcount, hleading, hitems⟩ := hr
    exact ⟨shape, hk _ _ hget (by simp), hcount, hleading.imp fun _ _ => h _ _,
      hitems.mono hk h⟩
  | string =>
    obtain ⟨t, ht, hget⟩ := hr
    exact ⟨t, ht, hk _ _ hget (by simp)⟩
  | _ => exact hk _ _ hr (by simp)

theorem representsStep_mono (hk : shapes.Keeps shapes')
    (hs : ∀ name c id, standing name c id → standing' name c id)
    (h : ∀ env c id, X env c id → Y env c id)
    {env : Env} {criterion : Criterion} (hr : representsStep shapes standing X env s id criterion) :
    representsStep shapes' standing' Y env s id criterion := by
  cases criterion with
  | reference text =>
    obtain ⟨name, c, hname, hfind, hstanding⟩ := hr
    exact ⟨name, c, hname, hfind, hs _ _ _ hstanding⟩
  | union placed branches =>
    obtain ⟨hclash, members, hchoice, hbranches⟩ := hr
    exact ⟨hclash, members, hk.isChoice hchoice, hbranches.imp fun _ _ => h _ _ _⟩
  | constant value => exact hk.isLiteral hr
  | enumeration values =>
    obtain ⟨members, hget, hmembers⟩ := hr
    exact ⟨members, hk _ _ hget (by simp), hmembers.imp fun _ _ => hk.isLiteral⟩
  | types types =>
    obtain ⟨members, hchoice, htypes⟩ := hr
    exact ⟨members, hk.isChoice hchoice, htypes.imp fun _ _ ht => ⟨ht.1, ht.2.mono hk (h env)⟩⟩
  | anything => exact hk.isFree hr

end

/-- The equations as a monotone operator. -/
def representsOperator (shapes : Shapes) (standing : Standing) :
    (Env → Schema → ShapeId → Prop) →o (Env → Schema → ShapeId → Prop) where
  toFun X env s id := representsStep shapes standing X (s.inner env) s id s.criterion
  monotone' := by
    intro X Y h env s id hr
    exact representsStep_mono (.refl shapes) (fun _ _ _ hs => hs) h hr

/-- The shape at a position represents a fragment. -/
def Represents (shapes : Shapes) (standing : Standing) : Env → Schema → ShapeId → Prop :=
  OrderHom.lfp (representsOperator shapes standing)

section

variable {shapes shapes' : Shapes} {standing standing' : Standing} {env : Env} {s : Schema}
  {id : ShapeId}

theorem represents_iff : Represents shapes standing env s id ↔
    representsStep shapes standing (Represents shapes standing) (s.inner env) s id s.criterion :=
  iff_of_eq (congrFun (congrFun (congrFun (representsOperator shapes standing).map_lfp env) s)
    id).symm

/-- Induction over how a fragment is represented; the parts are represented and have the property. -/
theorem Represents.induction {Y : Env → Schema → ShapeId → Prop}
    (h : ∀ env s id, representsStep shapes standing
      (fun env s id => Represents shapes standing env s id ∧ Y env s id) (s.inner env) s id
        s.criterion → Y env s id)
    (hr : Represents shapes standing env s id) : Y env s id := by
  let Z : Env → Schema → ShapeId → Prop := fun env s id =>
    Represents shapes standing env s id ∧ Y env s id
  have hle : Represents shapes standing ≤ Z := by
    refine OrderHom.lfp_le _ fun env s id hstep => ⟨represents_iff.mpr ?_, h env s id hstep⟩
    have hparts : ∀ env c id, Z env c id → Represents shapes standing env c id :=
      fun _ _ _ hz => hz.1
    exact representsStep_mono (.refl shapes) (fun _ _ _ hs => hs) hparts hstep
  exact (hle env s id hr).2

theorem Represents.mono (hk : shapes.Keeps shapes')
    (hs : ∀ name c id, standing name c id → standing' name c id)
    (h : Represents shapes standing env s id) :
    Represents shapes' standing' env s id := by
  have hle : Represents shapes standing ≤ Represents shapes' standing' := by
    refine OrderHom.lfp_le _ fun env s id hr => ?_
    exact represents_iff.mpr (representsStep_mono hk hs (fun _ _ _ hr => hr) hr)
  exact hle env s id h

end

end SchemaGrammar
