import SchemaGrammar.Compiler
import SchemaGrammar.Proofs.CheckingEnds
import SchemaGrammar.Proofs.DefinitionsOnce
import SchemaGrammar.Proofs.ErasedDefinitions

/-!
# Definitions that nothing refers to

A definition that nothing refers to can be added to a document, or taken out, and nothing changes:
neither the shapes of the document, nor its grammar, nor what is found out about values. What is
added may hide other definitions, may not have a grammar itself, and may stand where there were no
definitions before.

A run over a document is compared with one over what is left when the name is taken out. The two
go in step: they agree on everything but the scopes, which are the same without the name. A document
and the one with one more definition of the name have the same left, so both runs are in step with
one and the same.

What has been recorded of scopes grows during a run, and entering a fragment makes no difference
only if everything in scope has been recorded. So the relation between the states has a registry for
an index, which the first run has at least; it grows at each fragment and each reference.

## Main definitions

* `Lowering.Parallel`, `Checking.Parallel`: the states of the two runs.
* `withDefinition`: a document with one more definition.

## Main results

* `lower_without`, `validate_without`: a name that is avoided can be left out.
* `inert_withDefinition`: a definition that nothing refers to changes nothing.
-/

namespace SchemaGrammar

open Json (Value)

/-! ## Both runs -/

section

variable {s t : Schema} {external : Assoc Schema} {name : String} {r₀ : ScopeRegistry}
  {scope : Scope} {place : Place} {env : Env}

/-- A reference to another name is found without the name if it is found with it. -/
theorem Scope.found_or_unknown_without {text : String}
    (hne : ∀ other, definitionName? text = some other → other ≠ name) :
    (∃ other definition, definitionName? text = some other ∧ scope.get? other = some definition ∧
      (scope.without name).get? other = some (definition.without name)) ∨
    ∀ other, definitionName? text = some other →
      scope.get? other = none ∧ (scope.without name).get? other = none := by
  rcases scope.found_or_unknown text with ⟨other, definition, hother, hget⟩ | hnone
  · refine .inl ⟨other, definition, hother, hget, ?_⟩
    rw [get?_without (hne other hother), hget, Option.map_some]
  · refine .inr fun other hother => ⟨hnone other hother, ?_⟩
    rw [get?_without (hne other hother), hnone other hother, Option.map_none]

/-- Inside a fragment more may have been recorded. -/
theorem Enters.inStep_without {ε σ α : Type} {registry : σ → ScopeRegistry}
    {record : ScopeRegistry → σ → σ} {enter : Schema → Place → Scope → ExceptT ε (StateM σ) Scope}
    (he : Enters registry record enter) {S : ScopeRegistry → σ → σ → Prop}
    (hregistry : ∀ {r st st'}, S r st st' →
      ScopeRegistry.Parallel s external name r (registry st) (registry st'))
    (hrecord : ∀ {r r' st st'}, S r₀ st st' → ScopeRegistry.Parallel s external name r r r' →
      S r (record r st) (record r' st'))
    (hmono : ∀ {r}, r₀.Extends r → ∀ st st', S r st st' → S r₀ st st')
    (hd : DistinctNames s external) (hsees : Scope.Sees s external r₀ scope env)
    (havoids : scope.Avoids name) (hf : Fragment s external place env t)
    (ht : t.avoids name = true) {k k' : Scope → ExceptT ε (StateM σ) α}
    (h : ∀ r, Scope.Sees s external r (scope.entered place t) (t.inner env) →
      InStep (S r) (fun _ => True) (k (scope.entered place t))
        (k' ((scope.entered place t).without name))) :
    InStep (S r₀) (fun _ => True) (enter t place scope >>= k)
      (enter (t.without name) place (scope.without name) >>= k') := by
  intro st st' hst
  obtain ⟨hgrows, hinner, hentered⟩ := (hregistry hst).entered hd hsees havoids hf ht
  rw [he.run_bind, he.run_bind, ← Scope.entered_without]
  exact (h _ hinner _ _ (hrecord hst hentered)).mono (hmono hgrows)

end

/-! ## Lowering -/

namespace Lowering

theorem typed_without (lowerer : Schema → Lowerer) (name : String) (t : Schema) (type : TypeName) :
    typed (t.without name) ((t.without name).parts.map lowerer) type =
      typed t (t.parts.map fun c => lowerer (c.without name)) type := by
  have hundeclared : undeclared? (t.without name) = undeclared? t := by
    unfold undeclared?
    simp only [Schema.contains_declared_without]
    rw [Schema.without_eq]
  rw [Schema.parts_without]
  funext place layout scope
  cases type with
  | object =>
    unfold typed object
    simp only [hundeclared, Schema.isRequired_without]
    rfl
  | array =>
    rw [Schema.without_eq]
    rfl
  | string =>
    rw [Schema.without_eq]
    rfl
  | number => rfl
  | integer => rfl
  | boolean => rfl
  | null => rfl

theorem byCriterion_without (follow : String → Definition → Layout → Scope → LowerM ShapeId)
    (lowerer : Schema → Lowerer) (name : String) (t : Schema) :
    byCriterion follow lowerer (t.without name) (t.without name).criterion =
      byCriterion follow (fun c => lowerer (c.without name)) t t.criterion := by
  rw [Schema.criterion_without]
  cases t.criterion with
  | union placed branches => simp only [Criterion.map, byCriterion, List.map_map, Function.comp_def]
  | types types => simp only [Criterion.map, byCriterion, typed_without]
  | reference text => rfl
  | constant value => rfl
  | enumeration values => rfl
  | anything => rfl

/-- The states of two runs, one with and one without the definitions of the given name. -/
structure Parallel (s : Schema) (external : Assoc Schema) (name : String) (r₀ : ScopeRegistry)
    (st st' : Lowering) : Prop where
  registry : ScopeRegistry.Parallel s external name r₀ st.registry st'.registry
  shapes : st'.shapes = st.shapes
  references : st'.references = st.references

section

variable {s t : Schema} {external : Assoc Schema} {name : String} {r₀ : ScopeRegistry}
  {scope : Scope} {place : Place} {layout : Layout} {env : Env}
  {follow : String → Definition → Layout → Scope → LowerM ShapeId}

theorem Parallel.mono {r₁ : ScopeRegistry} (hr : r₀.Extends r₁) (st st' : Lowering)
    (h : Parallel s external name r₁ st st') : Parallel s external name r₀ st st' :=
  ⟨h.registry.mono hr, h.shapes, h.references⟩

theorem keepsShapes_parallel (s : Schema) (external : Assoc Schema) (name : String)
    (r₀ : ScopeRegistry) :
    KeepsShapes (Parallel s external name r₀) (fun _ => True) id where
  descend _ := rfl
  error _ _ := trivial
  size h := by rw [h.shapes]
  push h _ := ⟨h.registry, by rw [pushed, pushed, h.shapes, Shape.relaid_id], h.references⟩

/-- What is known of the bodies of definitions that avoid a name. -/
def BodiesParallel (s : Schema) (external : Assoc Schema) (name : String)
    (follow : String → Definition → Layout → Scope → LowerM ShapeId) : Prop :=
  ∀ ⦃r₀ : ScopeRegistry⦄ ⦃other : String⦄ ⦃definition : Definition⦄ ⦃layout : Layout⦄
    ⦃scope : Scope⦄ ⦃env : Env⦄, Scope.Sees s external r₀ scope env → scope.Avoids name →
    Fragment s external definition.place env definition.schema →
    definition.schema.avoids name = true →
    InStep (Parallel s external name r₀) (fun _ => True) (follow other definition layout scope)
      (follow other (definition.without name) layout (scope.without name))

theorem endInStep_closeReference_without {st st' : Lowering}
    (h : Parallel s external name r₀ st st') (id : ShapeId) (other : String) (target : ShapeId) :
    EndInStep (Parallel s external name r₀) (fun _ => True)
      ((closeReference id other target).run st) ((closeReference id other target).run st') := by
  rw [run_closeReference, run_closeReference, h.shapes]
  exact ⟨⟨h.registry, rfl, h.references⟩, rfl, fun _ _ => trivial⟩

theorem inStep_reference_without (hd : DistinctNames s external)
    (hfollow : BodiesParallel s external name follow) (hsees : Scope.Sees s external r₀ scope env)
    (havoids : scope.Avoids name) {text : String}
    (hne : ∀ other, definitionName? text = some other → other ≠ name) :
    InStep (Parallel s external name r₀) (fun _ => True) (reference follow text layout scope)
      (reference follow text layout (scope.without name)) := by
  rcases Scope.found_or_unknown_without hne with ⟨other, definition, hother, hget, hget'⟩ | hnone
  · intro st st' hst
    cases hlookup : st.references.lookup (other, definition.place) with
    | some id =>
      have hlookup' : st'.references.lookup (other, definition.place) = some id := by
        rw [hst.references, hlookup]
      rw [reference_known hother hget hlookup, reference_known hother hget' hlookup']
      exact .ok hst id
    | none =>
      have hlookup' : st'.references.lookup (other, definition.place) = none := by
        rw [hst.references, hlookup]
      obtain ⟨ht, hvisible, hscope, env', hf, hinner⟩ :=
        hst.registry.referred hd hsees havoids hget (hne other hother)
      rw [reference_new hother hget hlookup, reference_new hother hget' hlookup', hst.shapes,
        Definition.place_without, hscope]
      have hdefine : Parallel s external name st.registry
          (st.define (other, definition.place) other)
          (st'.define (other, definition.place) other) := by
        refine ⟨⟨.refl _, hst.registry.sound, hst.registry.avoids, hst.registry.same⟩, ?_, ?_⟩
        · rw [define, define, hst.shapes]
        · rw [define, define, hst.shapes, hst.references]
      refine (hfollow hinner hvisible hf ht _ _ hdefine).bind (Parallel.mono hst.registry.grows)
        fun target st₁ st₁' h => ?_
      exact endInStep_closeReference_without (h.mono hst.registry.grows) st.shapes.size other target
  · rw [reference_unknown fun other hother => (hnone other hother).1,
      reference_unknown fun other hother => (hnone other hother).2]
    exact inStep_throw trivial

/-- Two runs over a fragment, with and without the definitions of a name that it avoids. -/
theorem inStep_fold_without (hd : DistinctNames s external)
    (hfollow : BodiesParallel s external name follow) (hsees : Scope.Sees s external r₀ scope env)
    (havoids : scope.Avoids name) (hf : Fragment s external place env t)
    (ht : t.avoids name = true) :
    InStep (Parallel s external name r₀) (fun _ => True)
      (t.fold (step follow) place layout scope)
      ((t.without name).fold (step follow) place layout (scope.without name)) := by
  induction t using Schema.induction generalizing r₀ scope place env layout with
  | h t ih =>
    have havoids' := Scope.avoids_entered havoids ht place
    rw [Schema.fold_eq, Schema.fold_eq, step_eq, step_eq, Schema.clashes_without,
      byCriterion_without]
    refine enters.inStep_without Parallel.registry
      (fun hst hr => ⟨hr, hst.shapes, hst.references⟩) Parallel.mono hd hsees havoids hf ht
      fun r₁ hinner => .ite (inStep_throw trivial) ?_
    refine inStep_byCriterion (keepsShapes_parallel s external name r₁) (fun text htext => ?_)
      fun e he hnamed layout' => ?_
    · exact inStep_reference_without hd hfollow hinner havoids'
        fun other hother => Schema.avoids_reference ht htext hother
    · exact ih e he hinner havoids' (.child hf he)
        (Schema.avoids_child ht he fun hstep => by rw [hstep] at hnamed; cases hnamed)

theorem bodiesParallel (hd : DistinctNames s external) (jumps : Nat) :
    BodiesParallel s external name (Lowering.follow jumps) := by
  induction jumps with
  | zero =>
    intro r₀ other definition layout scope env _ _ _ _
    exact inStep_throw trivial
  | succ jumps ih =>
    intro r₀ other definition layout scope env hsees havoids hf ht
    exact inStep_fold_without hd ih hsees havoids hf ht

/-- Lowering, with and without the definitions of a name that the document avoids. -/
theorem endInStep_document_without (hd : DistinctNames s external) (hs : s.avoids name = true)
    (hexternal : ∀ e ∈ external, e.1 ≠ name → e.2.avoids name = true) (jumps : Nat)
    (layout : Layout) :
    EndInStep (Parallel s external name (ScopeRegistry.declare {} (Scope.ofExternal external)))
      (fun _ => True) ((documentWithin jumps s external layout).run {})
      ((documentWithin jumps (s.without name) (definitionsWithout name external) layout).run {}) := by
  have hscope : (Scope.ofExternal external).Avoids name := List.forall_mem_map.mpr hexternal
  have hrun : InStep _ _ (s.fold (step (follow jumps)) [] layout (Scope.ofExternal external))
      ((s.without name).fold (step (follow jumps)) [] layout
        ((Scope.ofExternal external).without name)) :=
    inStep_fold_without hd (bodiesParallel hd jumps) (Scope.sound_external hd).2 hscope .root hs
  rw [Scope.ofExternal_without] at hrun
  exact hrun _ _ ⟨ScopeRegistry.parallel_external hd hexternal, rfl, rfl⟩

end

end Lowering

/-- Lowering does not depend on definitions that nothing refers to. -/
theorem lower_without {s : Schema} {external : Assoc Schema} {name : String}
    (hd : DistinctNames s external) (hs : s.avoids name = true)
    (hexternal : ∀ e ∈ external, e.1 ≠ name → e.2.avoids name = true) (layout : Layout) :
    lower (s.without name) (definitionsWithout name external) layout = lower s external layout := by
  let jumps := max (s.definitionTotal external)
    ((s.without name).definitionTotal (definitionsWithout name external))
  obtain ⟨hstates, hsame, -⟩ := Lowering.endInStep_document_without hd hs hexternal jumps layout
  rw [Lowering.run_documentWithin (Nat.le_max_left _ _),
    Lowering.run_documentWithin (Nat.le_max_right _ _)] at hsame hstates
  exact lower_congr hsame hstates.shapes

/-! ## Checking -/

namespace Checking

theorem typed_without (check : Schema → Checker) (name : String) (t : Schema) (type : TypeName) :
    typed (t.without name) ((t.without name).parts.map check) type =
      typed t (t.parts.map fun c => check (c.without name)) type := by
  have hkeys : (t.without name).declared.keys = t.declared.keys := by
    rw [Schema.declared_without, Assoc.keys_map]
  have hobject : object (t.without name) = object t := by
    funext parts place members path scope
    unfold object
    simp only [Schema.contains_declared_without, Schema.isRequired_without, hkeys]
  have harray : array (t.without name) = array t := by
    rw [Schema.without_eq]
    rfl
  have hstring : string (t.without name) = string t := by
    rw [Schema.without_eq]
    rfl
  rw [Schema.parts_without]
  funext place value path scope
  unfold typed
  rw [hobject, harray, hstring]
  rfl

theorem byCriterion_without
    (follow : String → Definition → Value → Path → Scope → CheckM Unit)
    (check : Schema → Checker) (name : String) (t : Schema) :
    byCriterion follow check (t.without name) (t.without name).criterion =
      byCriterion follow (fun c => check (c.without name)) t t.criterion := by
  rw [Schema.criterion_without]
  cases t.criterion with
  | union placed branches => simp only [Criterion.map, byCriterion, List.map_map, Function.comp_def]
  | types types =>
    funext place value path scope
    simp only [Criterion.map, byCriterion, byTypes, typed_without]
  | reference text => rfl
  | constant value => rfl
  | enumeration values => rfl
  | anything => rfl

/-- The states of two runs, one with and one without the definitions of the given name. -/
structure Parallel (s : Schema) (external : Assoc Schema) (name : String) (r₀ : ScopeRegistry)
    (st st' : Checking) : Prop where
  registry : ScopeRegistry.Parallel s external name r₀ st.registry st'.registry
  active : st'.active = st.active

section

variable {s t : Schema} {external : Assoc Schema} {name : String} {r₀ : ScopeRegistry}
  {scope : Scope} {place : Place} {value : Value} {path : Path} {env : Env}
  {follow : String → Definition → Value → Path → Scope → CheckM Unit}

theorem Parallel.mono {r₁ : ScopeRegistry} (hr : r₀.Extends r₁) (st st' : Checking)
    (h : Parallel s external name r₁ st st') : Parallel s external name r₀ st st' :=
  ⟨h.registry.mono hr, h.active⟩

theorem endInStep_inside_without {key : DefinitionKey} {m m' : CheckM Unit} {st st' : Checking}
    (h : EndInStep (Parallel s external name r₀) (fun _ => True)
      (m.run { st with active := (key, path) :: st.active })
      (m'.run { st' with active := (key, path) :: st'.active })) :
    EndInStep (Parallel s external name r₀) (fun _ => True) ((inside key path m).run st)
      ((inside key path m').run st') := by
  obtain ⟨⟨hregistry, hactive⟩, hsame, -⟩ := h
  rcases hrun : m.run { st with active := (key, path) :: st.active } with ⟨outcome, st₁⟩
  rcases hrun' : m'.run { st' with active := (key, path) :: st'.active } with ⟨outcome', st₁'⟩
  rw [hrun, hrun'] at hregistry hactive hsame
  rw [run_inside hrun, run_inside hrun']
  exact ⟨⟨hregistry, congrArg (List.erase · (key, path)) hactive⟩, hsame, fun _ _ => trivial⟩

/-- What is known of the bodies of definitions that avoid a name. -/
def BodiesParallel (s : Schema) (external : Assoc Schema) (name : String)
    (follow : String → Definition → Value → Path → Scope → CheckM Unit) : Prop :=
  ∀ ⦃r₀ : ScopeRegistry⦄ ⦃other : String⦄ ⦃definition : Definition⦄ ⦃value : Value⦄
    ⦃path : Path⦄ ⦃scope : Scope⦄ ⦃env : Env⦄, Scope.Sees s external r₀ scope env →
    scope.Avoids name → Fragment s external definition.place env definition.schema →
    definition.schema.avoids name = true →
    InStep (Parallel s external name r₀) (fun _ => True) (follow other definition value path scope)
      (follow other (definition.without name) value path (scope.without name))

theorem inStep_reference_without (hd : DistinctNames s external)
    (hfollow : BodiesParallel s external name follow) (hsees : Scope.Sees s external r₀ scope env)
    (havoids : scope.Avoids name) {text : String}
    (hne : ∀ other, definitionName? text = some other → other ≠ name) :
    InStep (Parallel s external name r₀) (fun _ => True) (reference follow text value path scope)
      (reference follow text value path (scope.without name)) := by
  rcases Scope.found_or_unknown_without hne with ⟨other, definition, hother, hget, hget'⟩ | hnone
  · intro st st' hst
    obtain ⟨ht, hvisible, hscope, env', hf, hinner⟩ :=
      hst.registry.referred hd hsees havoids hget (hne other hother)
    rw [reference_eq hother hget, reference_eq hother hget', hst.active, Definition.place_without,
      hscope]
    split_ifs with hcontains
    · exact .error hst trivial
    · have hentered : Parallel s external name st.registry
          { st with active := ((other, definition.place), path) :: st.active }
          { st' with active := ((other, definition.place), path) :: st'.active } :=
        ⟨⟨.refl _, hst.registry.sound, hst.registry.avoids, hst.registry.same⟩,
          congrArg (List.cons _) hst.active⟩
      exact (endInStep_inside_without (hfollow hinner hvisible hf ht _ _ hentered)).mono
        (Parallel.mono hst.registry.grows)
  · rw [reference_unknown fun other hother => (hnone other hother).1,
      reference_unknown fun other hother => (hnone other hother).2]
    exact inStep_throw trivial

/-- Two checks against a fragment, with and without the definitions of a name that it avoids. -/
theorem inStep_fold_without (hd : DistinctNames s external)
    (hfollow : BodiesParallel s external name follow) (hsees : Scope.Sees s external r₀ scope env)
    (havoids : scope.Avoids name) (hf : Fragment s external place env t)
    (ht : t.avoids name = true) :
    InStep (Parallel s external name r₀) (fun _ => True)
      (t.fold (step follow) place value path scope)
      ((t.without name).fold (step follow) place value path (scope.without name)) := by
  induction t using Schema.induction generalizing r₀ scope place env value path with
  | h t ih =>
    have havoids' := Scope.avoids_entered havoids ht place
    rw [Schema.fold_eq, Schema.fold_eq, step_eq, step_eq, byCriterion_without]
    refine enters.inStep_without Parallel.registry (fun hst hr => ⟨hr, hst.active⟩) Parallel.mono
      hd hsees havoids hf ht fun r₁ hinner => ?_
    refine inStep_byCriterion keepsValues_any trivial (fun text htext => ?_)
      fun e he hnamed value' path' _ => ?_
    · exact inStep_reference_without hd hfollow hinner havoids'
        fun other hother => Schema.avoids_reference ht htext hother
    · exact ih e he hinner havoids' (.child hf he)
        (Schema.avoids_child ht he fun hstep => by rw [hstep] at hnamed; cases hnamed)

theorem bodiesParallel (hd : DistinctNames s external) (jumps : Nat) :
    BodiesParallel s external name (Checking.follow jumps) := by
  induction jumps with
  | zero =>
    intro r₀ other definition value path scope env _ _ _ _
    exact inStep_throw trivial
  | succ jumps ih =>
    intro r₀ other definition value path scope env hsees havoids hf ht
    exact inStep_fold_without hd ih hsees havoids hf ht

/-- Checking, with and without the definitions of a name that the document avoids. -/
theorem endInStep_document_without (hd : DistinctNames s external) (hs : s.avoids name = true)
    (hexternal : ∀ e ∈ external, e.1 ≠ name → e.2.avoids name = true) (jumps : Nat)
    (value : Value) :
    EndInStep (Parallel s external name (ScopeRegistry.declare {} (Scope.ofExternal external)))
      (fun _ => True) ((documentWithin jumps s external value).run {})
      ((documentWithin jumps (s.without name) (definitionsWithout name external) value).run {}) := by
  have hscope : (Scope.ofExternal external).Avoids name := List.forall_mem_map.mpr hexternal
  have hrun : InStep _ _ (s.fold (step (follow jumps)) [] value [] (Scope.ofExternal external))
      ((s.without name).fold (step (follow jumps)) [] value []
        ((Scope.ofExternal external).without name)) :=
    inStep_fold_without hd (bodiesParallel hd jumps) (Scope.sound_external hd).2 hscope .root hs
  rw [Scope.ofExternal_without] at hrun
  exact hrun _ _ ⟨ScopeRegistry.parallel_external hd hexternal, rfl⟩

end

end Checking

/-- Checking does not depend on definitions that nothing refers to. -/
theorem validate_without {s : Schema} {external : Assoc Schema} {name : String}
    (hd : DistinctNames s external) (hs : s.avoids name = true)
    (hexternal : ∀ e ∈ external, e.1 ≠ name → e.2.avoids name = true) (value : Value) :
    validate (s.without name) (definitionsWithout name external) value =
      validate s external value := by
  let jumps := max (Checking.jumps s external value)
    (Checking.jumps (s.without name) (definitionsWithout name external) value)
  obtain ⟨-, hsame, -⟩ := Checking.endInStep_document_without hd hs hexternal jumps value
  rwa [(validate_ends _ _ _).2.1 jumps (Nat.le_max_left _ _),
    (validate_ends _ _ _).2.1 jumps (Nat.le_max_right _ _)] at hsame

/-! ## One more definition -/

/-- The entries with one more, after the first `i`. -/
def Assoc.splice {α : Type} (i : Nat) (e : String × α) (entries : Assoc α) : Assoc α :=
  entries.take i ++ e :: entries.drop i

/-- The entries with the one under `key` changed. -/
def Assoc.modify {α : Type} (key : String) (f : α → α) (entries : Assoc α) : Assoc α :=
  entries.map fun e => (e.1, if e.1 = key then f e.2 else e.2)

/-- The fragment with one more definition of its own, after the first `i`. -/
def Schema.addOwn (s : Schema) (i : Nat) (name : String) (entry : Schema) : Schema :=
  { s with definitions := some (s.ownDefinitions.splice i (name, entry)) }

/-- The fragment with one of those it is made of changed. -/
def Schema.modifyChild (f : Schema → Schema) (s : Schema) : PlaceStep → Schema
  | .external _ => s
  | .property key => { s with properties := s.properties.map (Assoc.modify key f) }
  | .additional => { s with additional := s.additional.map (mapAdditional f) }
  | .items => { s with items := s.items.map f }
  | .leading i => { s with prefixItems := s.prefixItems.map (·.modify i f) }
  | .oneOf i => { s with oneOf := s.oneOf.map (·.modify i f) }
  | .anyOf i => { s with anyOf := s.anyOf.map (·.modify i f) }
  | .definition name => { s with definitions := s.definitions.map (Assoc.modify name f) }

/-- A document with the fragment at some place changed, and its external definitions. -/
def modifyFragment (f : Schema → Schema) : Place → Schema → Assoc Schema → Schema × Assoc Schema
  | [], s, external => (f s, external)
  | [.external name], s, external => (s, external.modify name f)
  | step :: place, s, external => modifyFragment (fun t => t.modifyChild f step) place s external

/-- Where a definition may stand. -/
inductive DefinitionSite where
  | external
  | fragment (place : Place)

/-- Where the definition of a name stands. -/
def DefinitionSite.place (name : String) : DefinitionSite → Place
  | .external => [.external name]
  | .fragment place => .definition name :: place

/-- Whether a document has a place for definitions. -/
def DefinitionSite.IsOf (s : Schema) (external : Assoc Schema) : DefinitionSite → Prop
  | .external => True
  | .fragment place => ∃ t, InDocument s external place t

/-- A document and its external definitions with one more definition, after the first `i` of those
that stand where it does. -/
def withDefinition (site : DefinitionSite) (i : Nat) (name : String) (entry s : Schema)
    (external : Assoc Schema) : Schema × Assoc Schema :=
  match site with
  | .external => (s, external.splice i (name, entry))
  | .fragment place => modifyFragment (fun t => t.addOwn i name entry) place s external

section

variable {name : String} {f : Schema → Schema}

theorem definitionsWithout_splice (i : Nat) (name : String) (entry : Schema)
    (entries : Assoc Schema) :
    definitionsWithout name (entries.splice i (name, entry)) = definitionsWithout name entries := by
  rw [definitionsWithout, Assoc.splice, List.filter_append, List.filter_cons_of_neg (by simp),
    ← List.filter_append, List.take_append_drop, definitionsWithout]

theorem map_modify_without (hf : ∀ t, (f t).without name = t.without name) (key : String)
    (entries : Assoc Schema) :
    (entries.modify key f).map (fun e => (e.1, e.2.without name)) =
      entries.map fun e => (e.1, e.2.without name) := by
  rw [Assoc.modify, List.map_map]
  refine List.map_congr_left fun e _ => ?_
  dsimp only [Function.comp_apply]
  split_ifs
  · rw [hf]
  · rfl

theorem definitionsWithout_modify (hf : ∀ t, (f t).without name = t.without name) (key : String)
    (entries : Assoc Schema) :
    definitionsWithout name (entries.modify key f) = definitionsWithout name entries := by
  have hfilter : (entries.modify key f).filter (fun e => e.1 != name) =
      Assoc.modify key f (entries.filter fun e => e.1 != name) := by
    rw [Assoc.modify, List.filter_map]
    rfl
  rw [definitionsWithout, hfilter, map_modify_without hf, definitionsWithout]

theorem map_without_modify (hf : ∀ t, (f t).without name = t.without name) (i : Nat)
    (list : List Schema) :
    (list.modify i f).map (Schema.without name) = list.map (Schema.without name) := by
  refine List.ext_getElem? fun j => ?_
  rw [List.getElem?_map, List.getElem?_map, List.getElem?_modify, Option.map_eq_map,
    Option.map_map]
  refine Option.map_congr fun t _ => ?_
  dsimp only [Function.comp_apply]
  split_ifs
  · exact hf t
  · rfl

/-- Leaving a name out undoes changes that only concern definitions of that name. -/
theorem modifyChild_without (hf : ∀ t, (f t).without name = t.without name) (s : Schema)
    (step : PlaceStep) : (s.modifyChild f step).without name = s.without name := by
  have hlist : ∀ (list : Option (List Schema)) (i : Nat),
      (list.map (·.modify i f)).map (·.map (Schema.without name)) =
        list.map (·.map (Schema.without name)) := by
    intro list i
    rw [Option.map_map]
    exact Option.map_congr fun l _ => map_without_modify hf i l
  rw [Schema.without_eq, Schema.without_eq name s]
  cases step with
  | external _ => rfl
  | property key =>
    have hproperties : (s.properties.map (Assoc.modify key f)).map
        (·.map fun e => (e.1, e.2.without name)) =
          s.properties.map (·.map fun e => (e.1, e.2.without name)) := by
      rw [Option.map_map]
      exact Option.map_congr fun entries _ => map_modify_without hf key entries
    dsimp only [Schema.modifyChild]
    rw [hproperties]
    rfl
  | additional =>
    have hadditional : (s.additional.map (Schema.mapAdditional f)).map
        (Schema.mapAdditional (Schema.without name)) =
          s.additional.map (Schema.mapAdditional (Schema.without name)) := by
      rcases s.additional with _ | (_ | c)
      · rfl
      · rfl
      · exact congrArg (fun t => some (Additional.schema t)) (hf c)
    dsimp only [Schema.modifyChild]
    rw [hadditional]
    rfl
  | items =>
    dsimp only [Schema.modifyChild]
    rw [Option.map_map, show Schema.without name ∘ f = Schema.without name from funext hf]
    rfl
  | leading i | oneOf i | anyOf i =>
    dsimp only [Schema.modifyChild]
    rw [hlist]
    rfl
  | definition key =>
    have hown : (s.modifyChild f (.definition key)).ownDefinitions =
        Assoc.modify key f s.ownDefinitions := by
      rw [Schema.modifyChild, Schema.ownDefinitions, Schema.ownDefinitions]
      cases s.definitions <;> rfl
    rw [hown, definitionsWithout_modify hf]
    rfl

theorem modifyFragment_without (hf : ∀ t, (f t).without name = t.without name) (place : Place)
    (s : Schema) (external : Assoc Schema) :
    (modifyFragment f place s external).1.without name = s.without name ∧
      definitionsWithout name (modifyFragment f place s external).2 =
        definitionsWithout name external := by
  fun_induction modifyFragment f place s external with
  | case1 f s external => exact ⟨hf s, rfl⟩
  | case2 f key s external => exact ⟨rfl, definitionsWithout_modify hf key external⟩
  | case3 f step place s external _ ih => exact ih fun t => modifyChild_without hf t step

theorem withDefinition_without (site : DefinitionSite) (i : Nat) (name : String)
    (entry s : Schema) (external : Assoc Schema) :
    (withDefinition site i name entry s external).1.without name = s.without name ∧
      definitionsWithout name (withDefinition site i name entry s external).2 =
        definitionsWithout name external := by
  cases site with
  | external => exact ⟨rfl, definitionsWithout_splice i name entry external⟩
  | fragment place =>
    refine modifyFragment_without (fun t => ?_) place s external
    have hown : definitionsWithout name (t.addOwn i name entry).ownDefinitions =
        definitionsWithout name t.ownDefinitions :=
      definitionsWithout_splice i name entry t.ownDefinitions
    rw [Schema.without_eq, Schema.without_eq name t, hown]
    rfl

end

/-! ### The definition is there -/

section

variable {s t : Schema} {external : Assoc Schema} {place : Place} {env : Env} {f : Schema → Schema}

theorem Assoc.mem_modify {α : Type} {f : α → α} {key : String} {entry : α} {entries : Assoc α}
    (h : (key, entry) ∈ entries) : (key, f entry) ∈ entries.modify key f :=
  List.mem_map.mpr ⟨_, h, by simp⟩

theorem Schema.mem_children_modifyChild {step : PlaceStep} (h : (step, t) ∈ s.children) :
    (step, f t) ∈ (s.modifyChild f step).children := by
  have hnamed : ∀ {entries : Option (Assoc Schema)} {key}, (key, t) ∈ entries.getD [] →
      (key, f t) ∈ (entries.map (Assoc.modify key f)).getD [] := by
    intro entries key hm
    cases entries with
    | none => exact absurd hm List.not_mem_nil
    | some entries => exact Assoc.mem_modify hm
  have hlist : ∀ {list : Option (List Schema)} {i}, (t, i) ∈ (list.getD []).zipIdx →
      (f t, i) ∈ ((list.map (·.modify i f)).getD []).zipIdx := by
    intro list i hm
    cases list with
    | none => exact absurd hm List.not_mem_nil
    | some list =>
      rw [Option.getD_some, List.mk_mem_zipIdx_iff_getElem?] at hm
      rw [Option.map_some, Option.getD_some, List.mk_mem_zipIdx_iff_getElem?]
      simp [hm]
  cases step with
  | external name => exact absurd h (external_notMem_children s name t)
  | property key =>
    have hm : (key, t) ∈ s.declared := by simpa [children] using h
    exact property_mem_children (s := s.modifyChild f (.property key)) (hnamed hm)
  | additional =>
    have hm : s.additional.bind Additional.fragment? = some t := by simpa [children] using h
    refine additional_mem_children ?_
    rcases hmore : s.additional with _ | (_ | c) <;> rw [hmore] at hm <;> cases hm
    rw [modifyChild, hmore]
    rfl
  | items =>
    have hm : s.items = some t := by simpa [children] using h
    exact items_mem_children (congrArg (Option.map f) hm)
  | leading i =>
    have hm : (t, i) ∈ (s.prefixItems.getD []).zipIdx := by simpa [children] using h
    exact leading_mem_children (s := s.modifyChild f (.leading i)) (hlist hm)
  | oneOf i =>
    have hm : (t, i) ∈ (s.oneOf.getD []).zipIdx := by simpa [children] using h
    cases hb : s.oneOf with
    | none => rw [hb] at hm; exact absurd hm List.not_mem_nil
    | some branches =>
      have hm' := hlist hm
      rw [hb] at hm'
      exact oneOf_mem_children (congrArg (Option.map _) hb) hm'
  | anyOf i =>
    have hm : (t, i) ∈ (s.anyOf.getD []).zipIdx := by simpa [children] using h
    cases hb : s.anyOf with
    | none => rw [hb] at hm; exact absurd hm List.not_mem_nil
    | some branches =>
      have hm' := hlist hm
      rw [hb] at hm'
      exact anyOf_mem_children (congrArg (Option.map _) hb) hm'
  | definition name =>
    have hm : (name, t) ∈ s.ownDefinitions := by simpa [children] using h
    exact definition_mem_children (s := s.modifyChild f (.definition name)) (hnamed hm)

/-- The fragment at the place is changed. -/
theorem Fragment.modifyFragment (h : Fragment s external place env t) :
    ∃ env', Fragment (modifyFragment f place s external).1 (modifyFragment f place s external).2
      place env' (f t) := by
  induction h generalizing f with
  | root => exact ⟨_, .root⟩
  | external h => exact ⟨_, .external (Assoc.mem_modify h)⟩
  | @child place env t step c h hc ih =>
    have hstep : SchemaGrammar.modifyFragment f (step :: place) s external =
        SchemaGrammar.modifyFragment (fun t => t.modifyChild f step) place s external := by
      cases step with
      | external name => exact absurd hc (Schema.external_notMem_children t name c)
      | _ => rfl
    rw [hstep]
    obtain ⟨env', hparent⟩ := ih (f := fun t => t.modifyChild f step)
    exact ⟨_, .child hparent (Schema.mem_children_modifyChild hc)⟩

theorem inDocument_withDefinition {site : DefinitionSite} (h : site.IsOf s external) (i : Nat)
    (name : String) (entry : Schema) :
    InDocument (withDefinition site i name entry s external).1
      (withDefinition site i name entry s external).2 (site.place name) entry := by
  cases site with
  | external => exact ⟨_, .external (List.mem_append_right _ List.mem_cons_self)⟩
  | fragment place =>
    obtain ⟨t, env, hf⟩ := h
    obtain ⟨env', hf'⟩ := hf.modifyFragment
    have hmem : (name, entry) ∈ (t.addOwn i name entry).ownDefinitions :=
      List.mem_append_right _ List.mem_cons_self
    exact ⟨_, .child hf' (Schema.definition_mem_children hmem)⟩

end

theorem forall_avoids_iff {name : String} {external : Assoc Schema} :
    (∀ e ∈ external, e.1 ≠ name → e.2.avoids name = true) ↔
      ∀ e ∈ definitionsWithout name external, e.2.avoids name = true := by
  simp only [definitionsWithout, List.forall_mem_map, List.mem_filter, Schema.avoids_without,
    bne_iff_ne, and_imp]

/-- **A definition that nothing refers to changes nothing.**

The definition may be an external one, or one of any fragment of the document or of an external
definition. It may be anything and refer to itself; no other reference is to its name, except from
definitions of the same name. Names are distinct before and after, so that the name is new where it
is added.

The definition then stands in the document. The shapes are the same, or the error is; so is the
grammar under all options; and every value is checked with the same result, which in case of a
mismatch includes its place. -/
theorem inert_withDefinition {s : Schema} {external : Assoc Schema} {name : String}
    (hd : DistinctNames s external) (hs : s.avoids name = true)
    (hexternal : ∀ e ∈ external, e.1 ≠ name → e.2.avoids name = true) (site : DefinitionSite)
    (i : Nat) (entry : Schema) {s' : Schema} {external' : Assoc Schema}
    (hmore : withDefinition site i name entry s external = (s', external'))
    (hd' : DistinctNames s' external') :
    (site.IsOf s external → InDocument s' external' (site.place name) entry) ∧
      (∀ layout, lower s' external' layout = lower s external layout) ∧
      (∀ options, grammarText s' external' options = grammarText s external options) ∧
      ∀ value, validate s' external' value = validate s external value := by
  obtain ⟨hwithout, hwithout'⟩ := withDefinition_without site i name entry s external
  rw [hmore] at hwithout hwithout'
  have hs' : s'.avoids name = true := by
    rw [← Schema.avoids_without, hwithout, Schema.avoids_without, hs]
  have hexternal' : ∀ e ∈ external', e.1 ≠ name → e.2.avoids name = true := by
    rw [forall_avoids_iff, hwithout', ← forall_avoids_iff]
    exact hexternal
  have hlower : ∀ layout, lower s' external' layout = lower s external layout := by
    intro layout
    rw [← lower_without hd' hs' hexternal', hwithout, hwithout', lower_without hd hs hexternal]
  refine ⟨fun hsite => ?_, hlower, fun options => ?_, fun value => ?_⟩
  · have hmem := inDocument_withDefinition hsite i name entry
    rwa [hmore] at hmem
  · rw [grammarText, hlower, grammarText]
  · rw [← validate_without hd' hs' hexternal', hwithout, hwithout',
      validate_without hd hs hexternal]

/-- A list of numbers that are defined apart. -/
def scoresSchema : Schema :=
  { types := some (.one .object)
    properties := some
      [("scores",
        { types := some (.one .array), items := some { reference := some "#/$defs/score" } })]
    definitions := some [("score", { types := some (.one .number) })] }

/-- The list gets a definition of its own that stands only for itself, so that it would have no
grammar. There is one all the same, and a list with `null` is refused as before. -/
theorem inert_withDefinition_scoresSchema :
    ∃ s', withDefinition (.fragment [.property "scores"]) 0 "loop"
        { reference := some "#/$defs/loop" } scoresSchema [] = (s', []) ∧
      s'.definitionCount = 2 ∧ (lower s' [] ⟨true, 4, 0⟩).isOk = true ∧
      (validate s' [] (.object [("scores", .array [.null])])).isOk = false := by
  have hd : DistinctNames scoresSchema [] :=
    ⟨List.nodup_nil, by decide +kernel, List.forall_mem_nil _⟩
  have hs : scoresSchema.avoids "loop" = true := by decide +kernel
  obtain ⟨-, hlower, -, hvalidate⟩ := inert_withDefinition hd hs (List.forall_mem_nil _)
    (.fragment [.property "scores"]) 0 { reference := some "#/$defs/loop" } rfl
    ⟨List.nodup_nil, by decide +kernel, List.forall_mem_nil _⟩
  refine ⟨_, rfl, by decide +kernel, ?_, ?_⟩
  · rw [hlower]
    decide +kernel
  · rw [hvalidate]
    decide +kernel

end SchemaGrammar
