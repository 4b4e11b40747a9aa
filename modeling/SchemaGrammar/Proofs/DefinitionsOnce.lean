import SchemaGrammar.Proofs.RunsInStep

/-!
# Each definition is lowered once

Lowering follows references into fragments that are not part of the one at hand, and stops all the
same. The shape that stands for a definition is recorded before the body of the definition is
looked at, so the bodies that are being looked at, and those that have been, have different keys;
and all keys in scope are those of the document. So the number of references that are followed in a
row is bounded by the number of definitions, and a larger bound changes nothing.

To say that a body is lowered only once, the run that does so keeps a record of its own: a mark for
each body that it begins with. Whatever it would do at a body that has its mark makes no difference.

Nothing is asked of the document: the same holds of one that is not lexically scoped, and of runs
that fail.

## Main definitions

* `Lowering.documentWithin`: lowering with some bound on references in a row.
* `Lowering.OneReferenceEach`: the definitions that were referred to have one shape each.
* `Lowering.documentMarked`: lowering that keeps a record of the bodies.

## Main results

* `lower_definitions_once`: lowering ends, and each definition has one shape and is lowered once.
-/

namespace SchemaGrammar

namespace Lowering

/-- The shape of a schema, through at most `jumps` references in a row. -/
def documentWithin (jumps : Nat) (s : Schema) (external : Assoc Schema) (layout : Layout) :
    LowerM ShapeId := do
  let scope := Scope.ofExternal external
  modify fun st => { st with registry := st.registry.declare scope }
  s.fold (step (follow jumps)) [] layout scope

/-- The definitions that were referred to are of the document and have one shape each, and no
other shape stands for a definition. -/
structure OneReferenceEach (s : Schema) (external : Assoc Schema) (st : Lowering) : Prop where
  distinct : (st.references.map Prod.fst).Nodup
  apart : (st.references.map Prod.snd).Nodup
  known : ∀ e ∈ st.references, e.1 ∈ documentKeys s external
  shapes : ∀ id name, (∃ target, st.shapes.get? id = some (.reference name target)) ↔
    ∃ place, ((name, place), id) ∈ st.references

/-! ## Marks -/

/-- The mark of a body that was begun. A reference names no definition with this key, for its name
is empty. -/
def bodyMark (key : DefinitionKey) : DefinitionKey := ("", .definition key.1 :: key.2)

/-- Lowers a definition's body and marks it; `again` is done for a body that has its mark. -/
def followMarked (again : String → Definition → Layout → Scope → LowerM ShapeId) :
    (jumps : Nat) → String → Definition → Layout → Scope → LowerM ShapeId
  | 0, name, _, _, _ => throw (.exhausted name)
  | jumps + 1, name, definition, layout, scope => do
    let mark := bodyMark (name, definition.place)
    if mark ∈ (← get).references.map Prod.fst then again name definition layout scope
    else
      modify fun st => { st with references := (mark, 0) :: st.references }
      definition.schema.fold (step (followMarked again jumps)) definition.place layout scope

/-- Lowers a schema and marks the bodies of definitions. -/
def documentMarked (again : String → Definition → Layout → Scope → LowerM ShapeId) (jumps : Nat)
    (s : Schema) (external : Assoc Schema) (layout : Layout) : LowerM ShapeId := do
  let scope := Scope.ofExternal external
  modify fun st => { st with registry := st.registry.declare scope }
  s.fold (step (followMarked again jumps)) [] layout scope

/-- The state with a mark for each definition that has a shape. -/
def marked (st : Lowering) : Lowering :=
  { st with references := st.references.flatMap fun e => [(bodyMark e.1, 0), e] }

section

variable {st : Lowering} {key : DefinitionKey}

theorem bodyMark_injective : Function.Injective bodyMark := by
  rintro ⟨name, place⟩ ⟨name', place'⟩ h
  simp only [bodyMark, Prod.mk.injEq, List.cons.injEq, PlaceStep.definition.injEq, true_and] at h
  exact Prod.ext h.1 h.2

theorem marked_injective : Function.Injective marked := by
  rintro ⟨shapes, registry, references⟩ ⟨shapes', registry', references'⟩ h
  simp only [marked, Lowering.mk.injEq] at h ⊢
  obtain ⟨hshapes, hregistry, hreferences⟩ := h
  refine ⟨hshapes, hregistry, ?_⟩
  induction references generalizing references' with
  | nil => cases references' with
    | nil => rfl
    | cons e references' => cases hreferences
  | cons e references ih => cases references' with
    | nil => cases hreferences
    | cons e' references' =>
      simp only [List.flatMap_cons, List.cons_append, List.nil_append, List.cons.injEq]
        at hreferences
      rw [hreferences.2.1, ih references' hreferences.2.2]

/-- A key that is not a mark is looked up among marks as without them. -/
theorem lookup_marked (st : Lowering) (hkey : key.1 ≠ "") :
    st.marked.references.lookup key = st.references.lookup key := by
  unfold marked
  dsimp only
  induction st.references with
  | nil => rfl
  | cons e references ih =>
    have hmark : (key == bodyMark e.1) = false :=
      beq_eq_false_iff_ne.mpr fun h => hkey (congrArg Prod.fst h)
    rw [List.flatMap_cons, List.cons_append, List.lookup_cons, hmark, List.cons_append,
      List.nil_append, List.lookup_cons, List.lookup_cons, ih]

theorem bodyMark_notMem_marked (hnames : ∀ e ∈ st.references, e.1.1 ≠ "")
    (hnew : key ∉ st.references.map Prod.fst) :
    bodyMark key ∉ st.marked.references.map Prod.fst := by
  intro hmem
  obtain ⟨e, he, hmark⟩ := List.mem_map.mp hmem
  obtain ⟨known, hknown, he⟩ := List.mem_flatMap.mp he
  rcases List.mem_cons.mp he with rfl | he
  · exact hnew (List.mem_map.mpr ⟨known, hknown, bodyMark_injective hmark⟩)
  · cases List.mem_singleton.mp he
    exact hnames _ hknown (congrArg Prod.fst hmark)

end

/-! ## What holds of the state all the time -/

theorem name_ne_empty {text name : String} (h : definitionName? text = some name) : name ≠ "" := by
  rintro rfl
  exact absurd (Option.mem_filter_iff.mp h).2 (by simp)

/-- The record of references is in order, whatever the run will come to. -/
structure Recorded (s : Schema) (external : Assoc Schema) (st : Lowering) : Prop where
  one : OneReferenceEach s external st
  names : ∀ e ∈ st.references, e.1.1 ≠ ""
  scopes : st.registry.Known s external

section

variable {s : Schema} {external : Assoc Schema} {st : Lowering} {key : DefinitionKey}

theorem Recorded.length_le (h : Recorded s external st) :
    st.references.length ≤ s.definitionTotal external := by
  have hsubset : st.references.map Prod.fst ⊆ documentKeys s external :=
    List.forall_mem_map.mpr h.one.known
  have hle := (h.one.distinct.subperm hsubset).length_le
  rwa [List.length_map, length_documentKeys] at hle

theorem Recorded.lt_size (h : Recorded s external st) {e : DefinitionKey × ShapeId}
    (he : e ∈ st.references) : e.2 < st.shapes.size := by
  obtain ⟨target, hget⟩ := (h.one.shapes e.2 e.1.1).mpr ⟨e.1.2, he⟩
  exact lt_size_of_get? hget

/-- Which shapes stand for definitions after one more shape. -/
theorem exists_reference_push {shapes : Shapes} {shape : Shape} {id : ShapeId} {name : String} :
    (∃ target, (shapes.push shape).2.get? id = some (.reference name target)) ↔
      (∃ target, shapes.get? id = some (.reference name target)) ∨
        id = shapes.size ∧ ∃ target, shape = .reference name target := by
  rcases Nat.lt_trichotomy id shapes.size with hlt | rfl | hgt
  · rw [Shapes.get?_push_of_lt hlt]
    simp [hlt.ne]
  · have hself : (shapes.push shape).2.get? shapes.size = some shape :=
      Shapes.get?_push_self shapes shape
    have hold : shapes.get? shapes.size = none := by simp [Shapes.get?, Shapes.size]
    simp [hself, hold]
  · have hnew : (shapes.push shape).2.get? id = none := by
      rw [Shapes.get?, Array.getElem?_eq_none_iff]
      have hsize := Shapes.size_push shapes shape
      rw [Shapes.size] at hsize
      omega
    have hold : shapes.get? id = none := by
      rw [Shapes.get?, Array.getElem?_eq_none_iff]
      exact hgt.le
    simp [hnew, hold, hgt.ne']

theorem Recorded.pushed (h : Recorded s external st) {shape : Shape}
    (hshape : shape.isReference = false) : Recorded s external (st.pushed shape) := by
  refine ⟨⟨h.one.distinct, h.one.apart, h.one.known, fun id name => ?_⟩, h.names, h.scopes⟩
  have hother : ¬ (id = st.shapes.size ∧ ∃ target, shape = .reference name target) := by
    rintro ⟨-, target, rfl⟩
    cases hshape
  exact exists_reference_push.trans (by rw [or_iff_left hother]; exact h.one.shapes id name)

theorem Recorded.define (h : Recorded s external st) {name : String} {place : Place}
    (hknown : (name, place) ∈ documentKeys s external) (hname : name ≠ "")
    (hnew : (name, place) ∉ st.references.map Prod.fst) :
    Recorded s external (st.define (name, place) name) := by
  refine ⟨⟨List.nodup_cons.mpr ⟨hnew, h.one.distinct⟩, List.nodup_cons.mpr ⟨?_, h.one.apart⟩,
    List.forall_mem_cons.mpr ⟨hknown, h.one.known⟩, fun id other => ?_⟩,
    List.forall_mem_cons.mpr ⟨hname, h.names⟩, h.scopes⟩
  · intro hmem
    obtain ⟨e, he, hid⟩ := List.mem_map.mp hmem
    exact absurd (h.lt_size he) (by rw [hid]; exact Nat.lt_irrefl _)
  · refine exists_reference_push.trans ?_
    rw [h.one.shapes id other, or_comm]
    constructor
    · rintro (⟨rfl, target, htarget⟩ | ⟨place', hmem⟩)
      · cases htarget
        exact ⟨place, List.mem_cons_self⟩
      · exact ⟨place', List.mem_cons_of_mem _ hmem⟩
    · rintro ⟨place', hmem⟩
      rcases List.mem_cons.mp hmem with heq | hmem
      · cases heq
        exact .inl ⟨rfl, none, rfl⟩
      · exact .inr ⟨place', hmem⟩

/-- Setting a target makes no shape stand for another definition. -/
theorem exists_reference_setTarget {shapes : Shapes} {id other target : ShapeId} {name : String} :
    (∃ found, (shapes.setTarget other target).get? id = some (.reference name found)) ↔
      ∃ found, shapes.get? id = some (.reference name found) := by
  by_cases heq : id = other
  · subst heq
    by_cases hopen : ∃ name, shapes.get? id = some (.reference name none)
    · obtain ⟨name, hopen⟩ := hopen
      rw [get?_setTarget_self hopen, hopen]
      simp
    · have hsame : shapes.setTarget id target = shapes := by
        unfold Shapes.setTarget
        split
        · next name hget => exact absurd ⟨name, hget⟩ hopen
        · rfl
      rw [hsame]
  · rw [get?_setTarget_of_ne heq]

theorem Recorded.setTarget (h : Recorded s external st) (id target : ShapeId) :
    Recorded s external { st with shapes := st.shapes.setTarget id target } :=
  ⟨⟨h.one.distinct, h.one.apart, h.one.known, fun other name =>
    exists_reference_setTarget.trans (h.one.shapes other name)⟩, h.names, h.scopes⟩

end

/-! ## Runs with and without marks -/

section

variable {s : Schema} {external : Assoc Schema}
  {again : String → Definition → Layout → Scope → LowerM ShapeId}

/-- A state in order in which at least `n` definitions have shapes, and the one with marks. -/
structure Marks (s : Schema) (external : Assoc Schema) (n : Nat) (st st' : Lowering) : Prop where
  recorded : Recorded s external st
  le : n ≤ st.references.length
  eq : st' = st.marked

/-- An error that is not about too many references in a row. -/
def IsProper (e : CompileError) : Prop := ∀ name, e ≠ .exhausted name

theorem keepsStep_marks (s : Schema) (external : Assoc Schema) (n : Nat) :
    KeepsStep (Marks s external n) IsProper id (InDocument s external)
      (Scope.Known s external) where
  descend _ := rfl
  error _ h := h
  size h := by rw [h.eq]; rfl
  push h hshape := ⟨h.recorded.pushed hshape, h.le, by rw [h.eq, Shape.relaid_id]; rfl⟩
  child h _ he := h.child he
  fine h hscope := hscope.entered h
  enter h hf hscope :=
    ⟨⟨⟨h.recorded.one.distinct, h.recorded.one.apart, h.recorded.one.known, h.recorded.one.shapes⟩,
      h.recorded.names, h.recorded.scopes.entered hscope hf⟩, h.le, by rw [h.eq]; rfl⟩

theorem endInStep_closeReference {n : Nat} {st st' : Lowering} (h : Marks s external n st st')
    (id : ShapeId) (name : String) (target : ShapeId) :
    EndInStep (Marks s external n) IsProper ((closeReference id name target).run st)
      ((closeReference id name target).run st') := by
  obtain ⟨hrecorded, hle, rfl⟩ := h
  have hst : Marks s external n { st with shapes := st.shapes.setTarget id target }
      { st.marked with shapes := st.shapes.setTarget id target } :=
    ⟨hrecorded.setTarget id target, hle, rfl⟩
  rw [run_closeReference, run_closeReference]
  refine ⟨hst, rfl, fun e he other => ?_⟩
  rintro rfl
  split_ifs at he
  cases he

/-- A body that has no mark is lowered, and gets one. -/
theorem run_followMarked {jumps : Nat} {st : Lowering} {name : String} {definition : Definition}
    {layout : Layout} {scope : Scope}
    (h : bodyMark (name, definition.place) ∉ st.references.map Prod.fst) :
    (followMarked again (jumps + 1) name definition layout scope).run st =
      (definition.schema.fold (step (followMarked again jumps)) definition.place layout scope).run
        { st with references := (bodyMark (name, definition.place), 0) :: st.references } := by
  rw [followMarked, run_get_bind, if_neg h]
  rfl

/-- What is known of the bodies of definitions that have just got their shapes, if `n` other
definitions had them before. -/
def BodiesInStep (s : Schema) (external : Assoc Schema) (n : Nat)
    (follow follow' : String → Definition → Layout → Scope → LowerM ShapeId) : Prop :=
  ∀ {st : Lowering} {name : String} {definition : Definition} {layout : Layout} {scope : Scope},
    Recorded s external (st.define (name, definition.place) name) → n ≤ st.references.length →
    InDocument s external definition.place definition.schema → scope.Known s external →
    EndInStep (Marks s external (n + 1)) IsProper
      ((follow name definition layout scope).run (st.define (name, definition.place) name))
      ((follow' name definition layout scope).run (st.marked.define (name, definition.place) name))

theorem inStep_reference {n : Nat}
    {follow follow' : String → Definition → Layout → Scope → LowerM ShapeId}
    (hfollow : BodiesInStep s external n follow follow') {text : String} {layout : Layout}
    {scope : Scope} (hscope : scope.Known s external) :
    InStep (Marks s external n) IsProper (reference follow text layout scope)
      (reference follow' text layout scope) := by
  rcases scope.found_or_unknown text with ⟨name, definition, hname, hget⟩ | hnone
  · rintro st _ ⟨hrecorded, hle, rfl⟩
    have hmarked : st.marked.references.lookup (name, definition.place) = _ :=
      lookup_marked st (name_ne_empty hname)
    cases hlookup : st.references.lookup (name, definition.place) with
    | some id =>
      rw [reference_known hname hget hlookup, reference_known hname hget (hmarked.trans hlookup)]
      exact .ok ⟨hrecorded, hle, rfl⟩ id
    | none =>
      rw [reference_new hname hget hlookup, reference_new hname hget (hmarked.trans hlookup)]
      obtain ⟨hf, hkey⟩ := hscope _ (Assoc.mem_of_get? hget)
      have hdefine := hrecorded.define hkey (name_ne_empty hname) (notMem_of_lookup hlookup)
      have hvisible := Scope.forall_visible hrecorded.scopes hscope (name, definition.place)
      refine (hfollow hdefine hle hf hvisible).bind
        (fun _ _ h => ⟨h.recorded, Nat.le_of_succ_le h.le, h.eq⟩) fun target st₁ st₁' h => ?_
      exact endInStep_closeReference ⟨h.recorded, Nat.le_of_succ_le h.le, h.eq⟩ st.shapes.size name
        target
  · rw [reference_unknown hnone, reference_unknown hnone]
    exact inStep_throw fun _ => by simp

/-- With as many references in a row as there are definitions without a shape, bodies are in step.
The next definition has a shape when its body is begun, so one reference less is enough there. -/
theorem bodiesInStep (jumps jumps' n : Nat) (hle : s.definitionTotal external ≤ jumps + n)
    (hle' : s.definitionTotal external ≤ jumps' + n) :
    BodiesInStep s external n (follow jumps) (followMarked again jumps') := by
  induction jumps generalizing jumps' n with
  | zero =>
    intro st name definition layout scope hrecorded hn
    have hlength := hrecorded.length_le
    simp only [define, List.length_cons] at hlength
    omega
  | succ jumps ih =>
    intro st name definition layout scope hrecorded hn hf hscope
    have hlength := hrecorded.length_le
    simp only [define, List.length_cons] at hlength
    obtain ⟨jumps', rfl⟩ : ∃ k, jumps' = k + 1 := Nat.exists_eq_add_one.mpr (by omega)
    have hnames := List.forall_mem_cons.mp hrecorded.names
    have hunmarked : bodyMark (name, definition.place) ∉
        (st.marked.define (name, definition.place) name).references.map Prod.fst := by
      intro hmem
      rcases List.mem_cons.mp hmem with heq | hmem
      · exact hnames.1 (congrArg Prod.fst heq).symm
      · exact bodyMark_notMem_marked hnames.2 (List.nodup_cons.mp hrecorded.one.distinct).1 hmem
    rw [run_followMarked hunmarked]
    exact inStep_fold (keepsStep_marks s external (n + 1))
      (fun text layout scope hscope =>
        inStep_reference (ih jumps' (n + 1) (by omega) (by omega)) hscope)
      hf hscope _ _ ⟨hrecorded, Nat.succ_le_succ hn, rfl⟩

/-- The whole run with marks, against any that may follow enough references in a row. -/
theorem endInStep_documentMarked
    (again : String → Definition → Layout → Scope → LowerM ShapeId) {jumps jumps' : Nat}
    (hle : s.definitionTotal external ≤ jumps) (hle' : s.definitionTotal external ≤ jumps')
    (layout : Layout) :
    EndInStep (Marks s external 0) IsProper ((documentWithin jumps s external layout).run {})
      ((documentMarked again jumps' s external layout).run {}) := by
  have hnone : ∀ id shape, ({} : Shapes).get? id ≠ some shape := fun id shape hget =>
    absurd (lt_size_of_get? hget) (Nat.not_lt_zero _)
  have hstart : Marks s external 0
      { registry := ScopeRegistry.declare {} (Scope.ofExternal external) }
      { registry := ScopeRegistry.declare {} (Scope.ofExternal external) } := by
    refine ⟨⟨⟨.nil, .nil, List.forall_mem_nil _, fun id name => ?_⟩, List.forall_mem_nil _,
      ScopeRegistry.known_external s external⟩, Nat.le_refl 0, rfl⟩
    exact ⟨fun ⟨target, h⟩ => absurd h (hnone id _), fun ⟨place, h⟩ => absurd h List.not_mem_nil⟩
  exact inStep_fold (keepsStep_marks s external 0)
    (fun text layout scope hscope => inStep_reference (bodiesInStep jumps jumps' 0 hle hle') hscope)
    ⟨_, .root⟩ (Scope.known_external s external) _ _ hstart

/-- A larger bound on references in a row changes nothing. -/
theorem run_documentWithin {jumps : Nat} (hle : s.definitionTotal external ≤ jumps)
    (layout : Layout) :
    (documentWithin jumps s external layout).run {} = (document s external layout).run {} := by
  have h := endInStep_documentMarked (follow 0) hle hle layout
  have h' := endInStep_documentMarked (follow 0) (le_refl _) hle layout
  refine Prod.ext (h.same.symm.trans h'.same) (marked_injective ?_)
  exact h.states.eq.symm.trans h'.states.eq

end

end Lowering

/-- **Lowering ends and compiles each definition once**, for all documents, whether they have a
grammar or not.

It is never stopped by the bound on references in a row, and runs under larger bounds are the same.
When it stops, the definitions that were referred to have one shape each, by whatever references
and scopes they were come to. A run that keeps a record of the bodies it begins with, and would do
something else at a body that it has begun with before, ends in the same way; its record then has
each of those definitions once. -/
theorem lower_definitions_once (s : Schema) (external : Assoc Schema) (layout : Layout) :
    (∀ name, lower s external layout ≠ .error (.exhausted name)) ∧
      (∀ jumps ≥ s.definitionTotal external,
        (Lowering.documentWithin jumps s external layout).run {} =
          (Lowering.document s external layout).run {}) ∧
      Lowering.OneReferenceEach s external ((Lowering.document s external layout).run {}).2 ∧
      ∀ again, ∀ jumps ≥ s.definitionTotal external,
        (Lowering.documentMarked again jumps s external layout).run {} =
          (((Lowering.document s external layout).run {}).1,
            ((Lowering.document s external layout).run {}).2.marked) := by
  have hmarked : ∀ again, ∀ jumps ≥ s.definitionTotal external,
      EndInStep (Lowering.Marks s external 0) Lowering.IsProper
        ((Lowering.document s external layout).run {})
        ((Lowering.documentMarked again jumps s external layout).run {}) := fun again _ hle =>
    Lowering.endInStep_documentMarked again (le_refl _) hle layout
  refine ⟨fun name herror => ?_, fun jumps hle => Lowering.run_documentWithin hle layout, ?_,
    fun again jumps hle => ?_⟩
  · obtain ⟨st, hrun⟩ := lower_error_inv herror
    have hproper := (hmarked (Lowering.follow 0) _ (le_refl _)).errors (.exhausted name)
    exact hproper (congrArg Prod.fst hrun) name rfl
  · exact (hmarked (Lowering.follow 0) _ (le_refl _)).states.recorded.one
  · exact Prod.ext (hmarked again jumps hle).same (hmarked again jumps hle).states.eq

/-- Two definitions that contain each other, and are referred to from outside too. -/
def mutualSchema : Schema :=
  { definitions := some
      [("a", { types := some (.one .object)
               properties := some [("b", { reference := some "#/$defs/b" })] }),
        ("b", { types := some (.one .object)
                properties := some [("a", { reference := some "#/$defs/a" }),
                  ("b", { reference := some "#/$defs/b" })] })]
    types := some (.one .object)
    properties := some [("x", { reference := some "#/$defs/a" }),
      ("y", { reference := some "#/$defs/b" })] }

/-- Five references lead to two shapes, and stopping at a body that was lowered before does not
stop the run. -/
theorem lower_definitions_once_mutualSchema :
    ((Lowering.document mutualSchema [] ⟨true, 4, 0⟩).run {}).2.references.map Prod.fst =
        [("b", [.definition "b"]), ("a", [.definition "a"])] ∧
      ((Lowering.documentMarked (fun name _ _ _ => throw (.exhausted name)) 7 mutualSchema []
        ⟨true, 4, 0⟩).run {}).1.isOk = true := by
  refine ⟨by decide +kernel, ?_⟩
  rw [(lower_definitions_once mutualSchema [] ⟨true, 4, 0⟩).2.2.2 _ 7 (by decide +kernel)]
  decide +kernel

end SchemaGrammar
