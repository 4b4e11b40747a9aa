import SchemaGrammar.Proofs.Represents
import SchemaGrammar.Proofs.StateRuns

/-!
# Lowering by parts

A fragment is lowered by lowering what it is made of and adding one shape to the table. What is
shown of lowering follows this course, so it is laid down here once: an account of runs says what is
kept, what is known of a fragment before it is entered and inside it, what holds of its shape, and
what a failure shows. It is lawful if a shape is as it should be whenever its parts are; then all
fragments are lowered as the account says. Only references are left to the account, as they lead
away.

## Main definitions

* `Schema.used`, `Schema.isSupported`: the parts of a fragment, and whether it has a shape.
* `Lowering.Account`: what is said of runs of lowering.
* `Lowering.Account.Formed`: how a new shape is made of its parts.

## Main results

* `Lowering.Account.Lawful.runs_fold`: a fragment is lowered as a lawful account says.
-/

namespace SchemaGrammar

open Json (Value)

namespace Schema

/-- The fragments that the parts of a value of a type are looked at with. -/
def partsFor (s : Schema) : TypeName → List Schema
  | .object => s.declared.map Prod.snd ++ (s.additional.bind Additional.fragment?).toList
  | .array => s.prefixItems.getD [] ++ s.items.toList
  | .string | .number | .integer | .boolean | .null => []

/-- The fragments that take part in the shape of a fragment. -/
def used (s : Schema) : List Schema :=
  match s.criterion with
  | .union _ branches => branches
  | .types types => types.flatMap s.partsFor
  | .reference _ | .constant _ | .enumeration _ | .anything => []

/-- Whether a fragment has a shape, as far as it goes itself. -/
def isSupported (s : Schema) : Bool :=
  match s.criterion with
  | .union _ branches => !s.clashes && !branches.isEmpty
  | .constant value => (Terminal.ofLiteral value).isOk
  | .enumeration values =>
    !values.isEmpty && values.all fun value => (Terminal.ofLiteral value).isOk
  | .types types => !types.isEmpty && types.all s.supports
  | .reference _ | .anything => true

variable {s t : Schema} {types : List TypeName} {type : TypeName}

theorem used_of_union {placed : Nat → PlaceStep} {branches : List Schema}
    (h : s.criterion = .union placed branches) : s.used = branches := by
  rw [used, h]

theorem used_of_types (h : s.criterion = .types types) : s.used = types.flatMap s.partsFor := by
  rw [used, h]

theorem mem_used_of_types (h : s.criterion = .types types) (htype : type ∈ types)
    (ht : t ∈ s.partsFor type) : t ∈ s.used := by
  rw [used_of_types h]
  exact List.mem_flatMap.mpr ⟨type, htype, ht⟩

theorem property_mem_partsFor {e : String × Schema} (h : e ∈ s.declared) :
    e.2 ∈ s.partsFor .object :=
  List.mem_append_left _ (List.mem_map_of_mem h)

theorem additional_mem_partsFor (h : s.additional = some (.schema t)) :
    t ∈ s.partsFor .object := by
  refine List.mem_append_right _ ?_
  rw [h]
  exact List.mem_singleton.mpr rfl

theorem additional_eq_of_mem (h : t ∈ (s.additional.bind Additional.fragment?).toList) :
    s.additional = some (.schema t) := by
  rcases hmore : s.additional with _ | (_ | c)
  · rw [hmore] at h
    cases h
  · rw [hmore] at h
    cases h
  · rw [hmore] at h
    rw [List.mem_singleton.mp h]

theorem leading_mem_partsFor (h : t ∈ s.prefixItems.getD []) : t ∈ s.partsFor .array :=
  List.mem_append_left _ h

theorem items_mem_partsFor (h : s.items = some t) : t ∈ s.partsFor .array :=
  List.mem_append_right _ (Option.mem_toList.mpr h)

theorem isSupported_of_clashes (h : s.clashes = true) : s.isSupported = false := by
  obtain ⟨⟨hreference, honeOf⟩, -⟩ : (s.reference.isNone = true ∧ s.oneOf.isSome = true) ∧
      s.anyOf.isSome = true := by simpa [clashes] using h
  obtain ⟨branches, hbranches⟩ := Option.isSome_iff_exists.mp honeOf
  have hc : s.criterion = .union .oneOf branches := by
    rw [criterion, Option.isNone_iff_eq_none.mp hreference, hbranches]
  simp [isSupported, hc, h]

theorem isSupported_of_supports (hc : s.criterion = .types types) (htype : type ∈ types)
    (h : s.supports type = false) : s.isSupported = false := by
  rw [isSupported, hc]
  exact Bool.and_eq_false_iff.mpr (.inr (List.all_eq_false.mpr ⟨type, htype, by simp [h]⟩))

end Schema

theorem forall₂_of_zipIdx {α β : Type} {R : α → β → Prop} {list : List α} {results : List β}
    (h : List.Forall₂ (fun e => R e.1) list.zipIdx results) : List.Forall₂ R list results := by
  have hmap := (List.forall₂_map_left_iff (f := Prod.fst)).mpr h
  rwa [List.zipIdx_map_fst] at hmap

namespace Lowering

/-! ## The course of a fragment -/

/-- The shape of a fragment by what decides about its values. -/
def byCriterion (follow : String → Definition → Layout → Scope → LowerM ShapeId)
    (lowerer : Schema → Lowerer) (t : Schema) : Criterion → Lowerer
  | .reference text => fun _ layout scope => reference follow text layout scope
  | .union placed branches => fun place layout scope => do
    choice .emptyUnion (← (branches.map lowerer).zipIdx.mapM fun e =>
      e.1 (placed e.2 :: place) layout scope)
  | .constant value => fun _ _ _ => literal value
  | .enumeration values => fun _ _ _ => enumeration values
  | .types types => fun place layout scope => do
    choice .emptyTypes (← types.mapM fun type =>
      typed t (t.parts.map lowerer) type place layout scope)
  | .anything => fun _ layout _ => push (.anyJson layout)

section

variable (follow : String → Definition → Layout → Scope → LowerM ShapeId)
  (lowerer : Schema → Lowerer) (t : Schema) (place : Place) (layout : Layout) (scope : Scope)

/-- A fragment is refused because of two unions, or lowered by what decides. -/
theorem step_cases :
    t.clashes = true ∧ step follow t (t.parts.map lowerer) place layout scope =
        (enter t place scope >>= fun _ => unsupported .bothUnions) ∨
      t.clashes = false ∧ step follow t (t.parts.map lowerer) place layout scope =
        (enter t place scope >>= fun inner =>
          byCriterion follow lowerer t t.criterion place layout inner) := by
  obtain ⟨types, properties, required, additional, items, prefixItems, minItems, maxItems,
    minLength, maxLength, format, enumeration, constant, oneOf, anyOf, definitions, reference,
    description⟩ := t
  cases reference with
  | some text => exact .inr ⟨rfl, rfl⟩
  | none =>
    cases oneOf with
    | some branches => cases anyOf with
      | some _ => exact .inl ⟨rfl, rfl⟩
      | none => exact .inr ⟨rfl, rfl⟩
    | none =>
      cases anyOf with
      | some branches => exact .inr ⟨rfl, rfl⟩
      | none =>
        cases constant with
        | some value => exact .inr ⟨rfl, rfl⟩
        | none =>
          cases enumeration with
          | some values => exact .inr ⟨rfl, rfl⟩
          | none => cases types <;> exact .inr ⟨rfl, rfl⟩

theorem step_eq :
    step follow t (t.parts.map lowerer) place layout scope =
      enter t place scope >>= fun inner =>
        if t.clashes then unsupported .bothUnions
        else byCriterion follow lowerer t t.criterion place layout inner := by
  rcases step_cases follow lowerer t place layout scope with ⟨hclash, heq⟩ | ⟨hclash, heq⟩
  · simp only [heq, hclash, if_true]
  · simp only [heq, hclash, Bool.false_eq_true, if_false]

/-- What comes after a fragment is entered runs in its scope. -/
theorem run_enter_bind {α : Type} (k : Scope → LowerM α) (st : Lowering) :
    (enter t place scope >>= k).run st =
      (k (scope.entered place t)).run
        { st with registry := st.registry.entered place t scope } := by
  unfold enter Scope.entered ScopeRegistry.entered
  split_ifs <;> rfl

end

/-! ## Accounts -/

/-- What a shape is made for: a fragment, one of its types, a value that it lists, or what it says
nothing about. -/
inductive Aspect where
  | whole
  | typed (type : TypeName)
  | literal (value : Value)
  | free

/-- What is said of runs: what is known of a fragment when it is come to and when it has been
entered, of the shape that was made for it, of that shape while further ones are added, and of a
failure. What stands around a fragment is of type `κ`. -/
structure Account (κ : Type) extends Course Lowering where
  inner : κ → Schema → κ
  ready : κ → Place → Schema → Layout → Scope → Lowering → Prop
  inside : κ → Place → Schema → Layout → Scope → Lowering → Prop
  made : κ → Schema → Layout → Aspect → Lowering → ShapeId → Prop
  part : κ → Schema → Layout → Aspect → Lowering → ShapeId → Prop
  flaw : κ → Schema → CompileError → Lowering → Prop

namespace Account

section

variable {κ : Type} (A : Account κ) (k : κ) (t : Schema) (layout : Layout) (st : Lowering)

/-- The shape of undeclared members. -/
def More : Option ShapeId → Prop
  | none => t.additional = none ∨ t.additional = some (.allowed false)
  | some id => t.additional = some (.allowed true) ∧ A.part k t layout .free st id ∨
    ∃ c, t.additional = some (.schema c) ∧ A.part (A.inner k t) c layout.descend .whole st id

/-- The shape of items that are not leading ones. -/
def Items (id : ShapeId) : Prop :=
  t.items = none ∧ A.part k t layout .free st id ∨
    ∃ c, t.items = some c ∧ A.part (A.inner k t) c layout.descend .whole st id

/-- The shape that is added for a fragment, made of parts that are there. -/
inductive Formed : Aspect → Shape → Prop
  | literal {value : Value} {terminal : Terminal} (h : Terminal.ofLiteral value = .ok terminal) :
      Formed (.literal value) (.terminal terminal)
  | enumeration {values : List Value} {members : List ShapeId}
      (hc : t.criterion = .enumeration values) (hne : values ≠ [])
      (h : List.Forall₂ (fun value => A.part k t layout (.literal value) st) values members) :
      Formed .whole (.enumeration members)
  | union {placed : Nat → PlaceStep} {branches : List Schema} {members : List ShapeId}
      (hc : t.criterion = .union placed branches) (hclash : t.clashes = false)
      (h : List.Forall₂ (fun b => A.part (A.inner k t) b layout .whole st) branches members)
      (hlen : 2 ≤ members.length) : Formed .whole (.union members)
  | types {types : List TypeName} {members : List ShapeId} (hc : t.criterion = .types types)
      (h : List.Forall₂ (fun type => A.part k t layout (.typed type) st) types members)
      (hlen : 2 ≤ members.length) : Formed .whole (.union members)
  | anything (hc : t.criterion = .anything) : Formed .whole (.anyJson layout)
  | hole {types : List TypeName} {type : TypeName} (hc : t.criterion = .types types)
      (htype : type ∈ types) (h : type = .object ∧ t.additional = some (.allowed true) ∨
        type = .array ∧ t.items = none) : Formed .free (.anyJson layout.descend)
  | string {terminal : Terminal} (h : stringTerminal t = .ok terminal) :
      Formed (.typed .string) (.terminal terminal)
  | number : Formed (.typed .number) (.terminal (.number true))
  | integer : Formed (.typed .integer) (.terminal (.number false))
  | boolean : Formed (.typed .boolean) (.terminal .boolean)
  | null : Formed (.typed .null) (.terminal .null)
  | object {properties : List Property} {extra : Option ShapeId}
      (hs : t.supports .object = true)
      (h : List.Forall₂ (fun e p => p.key = e.1 ∧ p.required = t.isRequired e.1 ∧
        A.part (A.inner k t) e.2 layout.descend .whole st p.value) t.declared properties)
      (hextra : A.More k t layout st extra) :
      Formed (.typed .object) (.object ⟨properties, extra, layout⟩)
  | array {leading : List ShapeId} {items : ShapeId} (hs : t.supports .array = true)
      (h : List.Forall₂ (fun c => A.part (A.inner k t) c layout.descend .whole st)
        (t.prefixItems.getD []) leading) (hitems : A.Items k t layout st items) :
      Formed (.typed .array) (.array
        { leading, items, layout
          least := max (t.minItems.getD 0) leading.length
          most := t.maxItems.map (max · leading.length) })

/-- The shape of a fragment that is one of its parts. -/
inductive Alone (id : ShapeId) : Prop
  | constant {value : Value} (hc : t.criterion = .constant value)
      (h : A.made k t layout (.literal value) st id)
  | union {placed : Nat → PlaceStep} {b : Schema} (hc : t.criterion = .union placed [b])
      (hclash : t.clashes = false) (h : A.made (A.inner k t) b layout .whole st id)
  | types {type : TypeName} (hc : t.criterion = .types [type])
      (h : A.made k t layout (.typed type) st id)

/-- What a run does from a state, for a fragment. -/
abbrev Runs {α : Type} (m : LowerM α) (post : Lowering → α → Prop) : Prop :=
  A.toCourse.Runs (A.flaw k t) st m post

end

/-- What is asked of an account: that it holds of each step if it holds of the parts. -/
structure Lawful {κ : Type} (A : Account κ)
    (follow : String → Definition → Layout → Scope → LowerM ShapeId) : Prop where
  part_of_made : ∀ {k t layout x st id}, A.made k t layout x st id → A.part k t layout x st id
  part_mono : ∀ {k t layout x st st' id}, A.inv st' → A.grows st st' →
    A.part k t layout x st id → A.part k t layout x st' id
  inside_mono : ∀ {k place t layout scope st st'}, A.inv st → A.grows st st' →
    A.inside k place t layout scope st → A.inside k place t layout scope st'
  enter : ∀ {k place t layout scope st}, A.inv st → A.ready k place t layout scope st →
    A.inv { st with registry := st.registry.entered place t scope } ∧
      A.grows st { st with registry := st.registry.entered place t scope } ∧
      A.inside k place t layout (scope.entered place t)
        { st with registry := st.registry.entered place t scope }
  child : ∀ {k place t layout layout' scope st}, A.inside k place t layout scope st →
    ∀ e ∈ t.children, e.2 ∈ t.used → layout'.style = layout.style →
    A.ready (A.inner k t) (e.1 :: place) e.2 layout' scope st
  push : ∀ {k place t layout scope st x shape}, A.inv st → A.inside k place t layout scope st →
    A.Formed k t layout st x shape →
    A.inv { st with shapes := (st.shapes.push shape).2 } ∧
      A.grows st { st with shapes := (st.shapes.push shape).2 } ∧
      A.made k t layout x { st with shapes := (st.shapes.push shape).2 } st.shapes.size
  alone : ∀ {k t layout st id}, A.Alone k t layout st id → A.made k t layout .whole st id
  own : ∀ {k t e st}, t.isSupported = false → (∀ name, e ≠ .unsupported (.selfReference name)) →
    A.flaw k t e st
  lift : ∀ {k t u e st}, u ∈ t.used → A.flaw (A.inner k t) u e st → A.flaw k t e st
  reference : ∀ {k place t layout scope st text}, A.inv st → A.inside k place t layout scope st →
    t.criterion = .reference text →
    A.Runs k t st (reference follow text layout scope) (A.made k t layout .whole)

/-- A fragment that has been entered, and whose parts are lowered as the account says. -/
structure Amid {κ : Type} (A : Account κ) (k : κ) (place : Place) (t : Schema) (layout : Layout)
    (scope : Scope) (lowerer : Schema → Lowerer) (st : Lowering) : Prop where
  inv : A.inv st
  inside : A.inside k place t layout scope st
  parts : ∀ e ∈ t.children, e.2 ∈ t.used → ∀ {layout' st'}, layout'.style = layout.style →
    A.inv st' → A.grows st st' →
    A.Runs k t st' (lowerer e.2 (e.1 :: place) layout' scope)
      (A.made (A.inner k t) e.2 layout' .whole)

namespace Lawful

variable {κ : Type} {A : Account κ}
  {follow : String → Definition → Layout → Scope → LowerM ShapeId} (hA : A.Lawful follow) {k : κ}
  {place : Place} {t : Schema} {layout : Layout} {scope : Scope} {lowerer : Schema → Lowerer}
  {st st' : Lowering} (h : A.Amid k place t layout scope lowerer st)

include hA h

theorem amid_mono (hst : A.inv st') (hg : A.grows st st') :
    A.Amid k place t layout scope lowerer st' :=
  ⟨hst, hA.inside_mono h.inv hg h.inside, fun e he hused _ _ hl hst' hg' =>
    h.parts e he hused hl hst' (A.trans hg hg')⟩

theorem runs_push {x : Aspect} {shape : Shape} (hx : A.Formed k t layout st x shape) :
    A.Runs k t st (Lowering.push shape) (A.made k t layout x) := by
  constructor
  · rintro _ _ ⟨⟩
    exact hA.push h.inv h.inside hx
  · rintro _ _ ⟨⟩

/-- What is lowered one level further in becomes a part. -/
theorem runs_part {step : PlaceStep} {c : Schema} (hmem : (step, c) ∈ t.children)
    (hused : c ∈ t.used) :
    A.Runs k t st (lowerer c (step :: place) layout.descend scope)
      (A.part (A.inner k t) c layout.descend .whole) :=
  (h.parts _ hmem hused layout.style_descend h.inv (A.refl st)).weaken
    fun _ _ _ => hA.part_of_made

/-! ## Leaves and choices -/

theorem runs_literal {value : Value}
    (hvalue : (Terminal.ofLiteral value).isOk = false → t.isSupported = false) :
    A.Runs k t st (Lowering.literal value) (A.made k t layout (.literal value)) := by
  refine (Course.runs_lift h.inv fun e he => hA.own (hvalue (by rw [he]; rfl)) ?_).bind
    fun terminal _ _ _ hterminal => hterminal.1 ▸ hA.runs_push h (.literal hterminal.2)
  rintro name rfl
  cases value <;> cases he

theorem runs_enumeration {values : List Value} (hc : t.criterion = .enumeration values) :
    A.Runs k t st (enumeration values) (A.made k t layout .whole) := by
  have hflaw : values.isEmpty = true ∨
      (values.all fun value => (Terminal.ofLiteral value).isOk) = false →
        t.isSupported = false := by
    intro hbad
    rw [Schema.isSupported, hc]
    exact Bool.and_eq_false_iff.mpr (hbad.imp_left fun hempty => by rw [hempty]; rfl)
  unfold enumeration
  split_ifs with hempty
  · exact Course.runs_throw (hA.own (hflaw (.inl hempty)) (by simp))
  · refine (Course.Runs.mapM (R := fun value => A.part k t layout (.literal value)) h.inv
      hA.part_mono fun value hvalue st' hst' hg => ?_).bind fun members st' hst' hg hmembers =>
        hA.runs_push (hA.amid_mono h hst' hg) (.enumeration hc (by simpa using hempty) hmembers)
    refine (hA.runs_literal (hA.amid_mono h hst' hg) fun hbad => hflaw (.inr ?_)).weaken
      fun _ _ _ => hA.part_of_made
    exact List.all_eq_false.mpr ⟨value, hvalue, by simp [hbad]⟩

/-- A choice between the results of runs; if there is one only, it is the result. -/
theorem runs_choice {γ : Type} {none? : Unsupported} (hnone : ∀ name, none? ≠ .selfReference name)
    {list : List γ} {f : γ → LowerM ShapeId} {part : γ → Lowering → ShapeId → Prop}
    (made : γ → Lowering → ShapeId → Prop)
    (hempty : list = [] → t.isSupported = false)
    (hpart : ∀ {x st id}, made x st id → part x st id)
    (hmono : ∀ {st st' x id}, A.inv st' → A.grows st st' → part x st id → part x st' id)
    (hone : ∀ {x st id}, list = [x] → made x st id → A.made k t layout .whole st id)
    (hseveral : ∀ {st members}, List.Forall₂ (fun x => part x st) list members →
      2 ≤ members.length → A.Formed k t layout st .whole (.union members))
    (hf : ∀ x ∈ list, ∀ {st'}, A.Amid k place t layout scope lowerer st' →
      A.Runs k t st' (f x) (made x)) :
    A.Runs k t st (list.mapM f >>= choice none?) (A.made k t layout .whole) := by
  rcases list with _ | ⟨x, _ | ⟨y, list⟩⟩
  · refine Course.runs_throw (hA.own (hempty rfl) fun name heq => ?_)
    exact hnone name (CompileError.unsupported.inj heq)
  · have hsame : [x].mapM f >>= choice none? = f x := by
      simp [choice]
    rw [hsame]
    exact (hf x List.mem_cons_self h).weaken fun _ _ _ => hone rfl
  · refine (Course.Runs.mapM (R := part) h.inv hmono fun x hx st' hst' hg =>
      (hf x hx (hA.amid_mono h hst' hg)).weaken fun _ _ _ => hpart).bind
        fun members st' hst' hg hmembers => ?_
    have hformed := hseveral hmembers
    rw [← hmembers.length_eq] at hformed
    rcases members with _ | ⟨a, _ | ⟨b, members⟩⟩
    · cases hmembers
    · cases hmembers with
      | cons _ hrest => cases hrest
    · exact hA.runs_push (hA.amid_mono h hst' hg) (hformed (by simp))

/-! ## Values of one type -/

section

variable {types : List TypeName} (hc : t.criterion = .types types)

include hc

theorem runs_hole {type : TypeName} (htype : type ∈ types)
    (hopen : type = .object ∧ t.additional = some (.allowed true) ∨
      type = .array ∧ t.items = none) :
    A.Runs k t st (Lowering.push (.anyJson layout.descend)) (A.part k t layout .free) :=
  (hA.runs_push h (.hole hc htype hopen)).weaken fun _ _ _ => hA.part_of_made

theorem runs_properties (htype : .object ∈ types) :
    A.Runs k t st
      ((t.parts.map lowerer).properties.mapM fun e => do
        let value ← e.2 (.property e.1 :: place) layout.descend scope
        return ({ key := e.1, value := value, required := t.isRequired e.1 } : Property))
      fun st' => List.Forall₂ (fun e p => p.key = e.1 ∧ p.required = t.isRequired e.1 ∧
        A.part (A.inner k t) e.2 layout.descend .whole st' p.value) t.declared := by
  rw [Schema.properties_map_parts, List.mapM_map]
  refine Course.Runs.mapM h.inv (fun hst hg hp => ⟨hp.1, hp.2.1, hA.part_mono hst hg hp.2.2⟩)
    fun e he st' hst' hg => ?_
  have hused := Schema.mem_used_of_types hc htype (Schema.property_mem_partsFor he)
  exact (hA.runs_part (hA.amid_mono h hst' hg) (Schema.property_mem_children he) hused).bind
    fun value st'' hst'' _ hvalue => .pure hst'' ⟨rfl, rfl, hvalue⟩

theorem runs_additional (htype : .object ∈ types) :
    A.Runs k t st (additional layout.descend place scope (t.parts.map lowerer).additional)
      (A.More k t layout) := by
  rw [Schema.additional_map_parts]
  rcases hmore : t.additional with _ | (_ | _) | c
  · exact .pure h.inv (.inl hmore)
  · exact .pure h.inv (.inr hmore)
  · exact (hA.runs_hole h hc htype (.inl ⟨rfl, hmore⟩)).bind fun id st' hst' _ hid =>
      .pure hst' (.inl ⟨hmore, hid⟩)
  · have hused := Schema.mem_used_of_types hc htype (Schema.additional_mem_partsFor hmore)
    exact (hA.runs_part h (Schema.additional_mem_children hmore) hused).bind
      fun id st' hst' _ hid => .pure hst' (.inr ⟨c, hmore, hid⟩)

theorem runs_object (htype : .object ∈ types) :
    A.Runs k t st (object t (t.parts.map lowerer) place layout scope)
      (A.made k t layout (.typed .object)) := by
  unfold object
  split
  · next key hkey =>
    have hsupports : t.supports .object = false := by rw [Schema.supports, hkey]; rfl
    exact Course.runs_throw (hA.own (Schema.isSupported_of_supports hc htype hsupports) (by simp))
  · next hnone =>
    refine (hA.runs_properties h hc htype).bind fun properties st₁ hst₁ hg₁ hproperties => ?_
    have h₁ := hA.amid_mono h hst₁ hg₁
    refine (hA.runs_additional h₁ hc htype).bind fun extra st₂ hst₂ hg₂ hextra => ?_
    refine hA.runs_push (hA.amid_mono h₁ hst₂ hg₂)
      (.object (Option.isNone_iff_eq_none.mpr hnone) ?_ hextra)
    exact hproperties.imp fun _ _ hp => ⟨hp.1, hp.2.1, hA.part_mono hst₂ hg₂ hp.2.2⟩

theorem runs_checkItemBounds (htype : .array ∈ types) :
    A.Runs k t st (checkItemBounds t) fun _ _ => t.supports .array = true := by
  unfold checkItemBounds
  split
  · next least most hmin hmax =>
    split_ifs with hlt
    · have hsupports : t.supports .array = false := by
        refine Bool.eq_false_of_not_eq_true fun hbounds => ?_
        exact Nat.not_le.mpr hlt (Schema.supports_array_iff.mp hbounds least hmin most hmax)
      exact Course.runs_throw
        (hA.own (Schema.isSupported_of_supports hc htype hsupports) (by simp))
    · refine .pure h.inv (Schema.supports_array_iff.mpr ?_)
      rintro _ hl _ hm
      cases hmin.symm.trans hl
      cases hmax.symm.trans hm
      exact Nat.le_of_not_lt hlt
  · next hnone =>
    exact .pure h.inv (Schema.supports_array_iff.mpr fun least hl most hm =>
      (hnone least most hl hm).elim)

theorem runs_leading (htype : .array ∈ types) :
    A.Runs k t st
      ((t.parts.map lowerer).leading.zipIdx.mapM fun e =>
        e.1 (.leading e.2 :: place) layout.descend scope)
      fun st' => List.Forall₂ (fun c => A.part (A.inner k t) c layout.descend .whole st')
        (t.prefixItems.getD []) := by
  rw [Schema.leading_map_parts, List.zipIdx_map, List.mapM_map]
  refine (Course.Runs.mapM
    (R := fun e : Schema × Nat => A.part (A.inner k t) e.1 layout.descend .whole) h.inv
    hA.part_mono fun e he st' hst' hg => hA.runs_part (hA.amid_mono h hst' hg)
      (Schema.leading_mem_children he) (Schema.mem_used_of_types hc htype
        (Schema.leading_mem_partsFor (List.fst_mem_of_mem_zipIdx he)))).weaken
    fun _ _ _ hids => forall₂_of_zipIdx hids

theorem runs_array (htype : .array ∈ types) :
    A.Runs k t st (array t (t.parts.map lowerer) place layout scope)
      (A.made k t layout (.typed .array)) := by
  rw [array_eq]
  refine (hA.runs_checkItemBounds h hc htype).bind fun _ st₁ hst₁ hg₁ hsupports => ?_
  have h₁ := hA.amid_mono h hst₁ hg₁
  refine (hA.runs_leading h₁ hc htype).bind fun leading st₂ hst₂ hg₂ hleading => ?_
  have h₂ := hA.amid_mono h₁ hst₂ hg₂
  have hitems : A.Runs k t st₂
      (furtherItems (t.parts.map lowerer).items place layout.descend scope)
      (A.Items k t layout) := by
    rw [Schema.items_map_parts]
    cases hitems : t.items with
    | none =>
      exact (hA.runs_hole h₂ hc htype (.inr ⟨rfl, hitems⟩)).weaken
        fun _ _ _ hid => .inl ⟨hitems, hid⟩
    | some c =>
      have hused := Schema.mem_used_of_types hc htype (Schema.items_mem_partsFor hitems)
      exact (hA.runs_part h₂ (Schema.items_mem_children hitems) hused).weaken
        fun _ _ _ hid => .inr ⟨c, hitems, hid⟩
  exact hitems.bind fun items st₃ hst₃ hg₃ hitems => hA.runs_push (hA.amid_mono h₂ hst₃ hg₃)
    (.array hsupports (hleading.imp fun _ _ => hA.part_mono hst₃ hg₃) hitems)

theorem runs_typed {type : TypeName} (htype : type ∈ types) :
    A.Runs k t st (typed t (t.parts.map lowerer) type place layout scope)
      (A.made k t layout (.typed type)) := by
  unfold typed
  cases type with
  | object => exact hA.runs_object h hc htype
  | array => exact hA.runs_array h hc htype
  | string =>
    refine (Course.runs_lift h.inv fun e he => hA.own
      (Schema.isSupported_of_supports hc htype (by rw [Schema.supports, he]; rfl)) ?_).bind
      fun terminal _ _ _ ht => ht.1 ▸ hA.runs_push h (.string ht.2)
    rintro name rfl
    unfold stringTerminal at he
    split at he
    · cases he
    · cases he
    · split_ifs at he
      cases he
  | number => exact hA.runs_push h .number
  | integer => exact hA.runs_push h .integer
  | boolean => exact hA.runs_push h .boolean
  | null => exact hA.runs_push h .null

end

/-! ## Fragments -/

theorem runs_byCriterion (hclash : t.clashes = false) :
    A.Runs k t st (byCriterion follow lowerer t t.criterion place layout scope)
      (A.made k t layout .whole) := by
  cases hc : t.criterion with
  | reference text => exact hA.reference h.inv h.inside hc
  | union placed branches =>
    change A.Runs k t st ((branches.map lowerer).zipIdx.mapM _ >>= _) _
    rw [List.zipIdx_map, List.mapM_map]
    refine hA.runs_choice h (by simp)
      (fun e : Schema × Nat => A.made (A.inner k t) e.1 layout .whole) (fun hnil => ?_)
      hA.part_of_made hA.part_mono (fun {e _ _} hone hid => hA.alone ?_)
      (fun hmembers => .union hc hclash (forall₂_of_zipIdx hmembers)) fun e he _ h' => ?_
    · simp [Schema.isSupported, hc, List.zipIdx_eq_nil_iff.mp hnil]
    · have hbranches := congrArg (List.map Prod.fst) hone
      rw [List.zipIdx_map_fst] at hbranches
      exact .union (hbranches ▸ hc) hclash hid
    · have hused : e.1 ∈ t.used := Schema.used_of_union hc ▸ List.fst_mem_of_mem_zipIdx he
      exact h'.parts _ (Schema.mem_children_of_criterion hc he) hused rfl h'.inv (A.refl _)
  | constant value =>
    exact (hA.runs_literal h fun hbad => by simpa [Schema.isSupported, hc] using hbad).weaken
      fun _ _ _ hid => hA.alone (.constant hc hid)
  | enumeration values => exact hA.runs_enumeration h hc
  | types types =>
    exact hA.runs_choice h (by simp) (fun type => A.made k t layout (.typed type))
      (fun hnil => by simp [Schema.isSupported, hc, hnil]) hA.part_of_made hA.part_mono
      (fun hone hid => hA.alone (.types (hone ▸ hc) hid)) (.types hc)
      fun type htype _ h' => hA.runs_typed h' hc htype
  | anything => exact hA.runs_push h (.anything hc)

omit h

/-- **A fragment is lowered as a lawful account says**, by induction over the fragments that it is
made of. -/
theorem runs_fold (hst : A.inv st) (hready : A.ready k place t layout scope st) :
    A.Runs k t st (t.fold (step follow) place layout scope) (A.made k t layout .whole) := by
  induction t using Schema.induction generalizing k place layout scope st with
  | h t ih =>
    obtain ⟨hst₁, hg₁, hinside⟩ := hA.enter hst hready
    -- what comes after the fragment is entered runs from a state that has grown
    suffices hrest : A.Runs k t { st with registry := st.registry.entered place t scope }
        (if t.clashes then unsupported .bothUnions
          else byCriterion follow (Schema.fold (step follow)) t t.criterion place layout
            (scope.entered place t)) (A.made k t layout .whole) by
      rw [Schema.fold_eq, step_eq]
      refine ⟨fun hrun => ?_, fun hrun => ?_⟩
      · rw [run_enter_bind] at hrun
        obtain ⟨hst', hg', hmade⟩ := hrest.ok hrun
        exact ⟨hst', A.trans hg₁ hg', hmade⟩
      · rw [run_enter_bind] at hrun
        exact hrest.error hrun
    split_ifs with hclash
    · exact Course.runs_throw (hA.own (Schema.isSupported_of_clashes hclash) (by simp))
    · refine hA.runs_byCriterion ⟨hst₁, hinside, fun e he hused _ _ hl hst' hg' => ?_⟩
        (Bool.eq_false_of_not_eq_true hclash)
      exact (ih e he hst' (hA.child (hA.inside_mono hst₁ hg' hinside) e he hused hl)).imp_error
        fun _ _ => hA.lift hused

end Lawful

end Account

end Lowering

end SchemaGrammar
