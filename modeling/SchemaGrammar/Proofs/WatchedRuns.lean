import SchemaGrammar.Proofs.LexicalPlaces
import SchemaGrammar.Proofs.RunsInStep

/-!
# The references that a run comes to

Lowering and checking look names up in a flat scope that depends on the way by which a fragment was
come to. In a lexically scoped document the way does not matter: the definition that is found is
the one that the place of the reference means.

To say this of all references that a run comes to, the run is watched. When it has looked a
reference up, and before it goes on with what it found, something else may be done; it is told where
the reference stands and what was found, and may read and change the state of the run or stop it. A
run makes only look-ups of some kind if nothing that is done at the others makes a difference.

## Main definitions

* `Lowering.VisitsOnly`, `Checking.VisitsOnly`: all look-ups that a run makes are of some kind.
* `Lookup.IsLexical`: what was found is what the place of the reference says.
* `Alike`: two runs from one state do the same.

## Main results

* `visitsOnly_lexical`: what is found is what the places of references say, in all runs.
-/

namespace SchemaGrammar

open Json (Value)

/-- The reference was found to name the definition that its place says it means. -/
def Lookup.IsLexical (s : Schema) (external : Assoc Schema) (l : Lookup) : Prop :=
  ∃ name definition, definitionName? l.text = some name ∧
    lexical? s external l.place name = some definition ∧ l.found = some (name, definition)

/-! ## Watched runs -/

namespace Lowering

/-- Lowers a definition's body and is watched. -/
def followWatched (probe : Lookup → LowerM Unit) :
    (jumps : Nat) → String → Definition → Layout → Scope → LowerM ShapeId
  | 0, name, _, _, _ => throw (.exhausted name)
  | jumps + 1, _, definition, layout, scope =>
    definition.schema.fold (stepWith probe (followWatched probe jumps)) definition.place layout
      scope

/-- Lowers a schema and is watched. -/
def documentWatched (probe : Lookup → LowerM Unit) (s : Schema) (external : Assoc Schema)
    (layout : Layout) : LowerM ShapeId := do
  let scope := Scope.ofExternal external
  modify fun st => { st with registry := st.registry.declare scope }
  s.fold (stepWith probe (followWatched probe (s.definitionTotal external))) [] layout scope

/-- All look-ups that lowering makes are good: nothing that is done at others shows. -/
def VisitsOnly (s : Schema) (external : Assoc Schema) (layout : Layout) (good : Lookup → Prop) :
    Prop :=
  ∀ probe, (∀ l, good l → probe l = pure ()) →
    (documentWatched probe s external layout).run {} = (document s external layout).run {}

end Lowering

namespace Checking

/-- Checks a value against a definition's body and is watched. -/
def followWatched (probe : Lookup → CheckM Unit) :
    (jumps : Nat) → String → Definition → Value → Path → Scope → CheckM Unit
  | 0, name, _, _, path, _ => fail path (.exhausted name)
  | jumps + 1, _, definition, value, path, scope =>
    definition.schema.fold (stepWith probe (followWatched probe jumps)) definition.place value path
      scope

/-- Checks a value against a schema and is watched. -/
def documentWatched (probe : Lookup → CheckM Unit) (s : Schema) (external : Assoc Schema)
    (value : Value) : CheckM Unit := do
  let scope := Scope.ofExternal external
  modify fun st => { st with registry := st.registry.declare scope }
  s.fold (stepWith probe (followWatched probe (jumps s external value))) [] value [] scope

/-- All look-ups that checking makes are good: nothing that is done at others shows. -/
def VisitsOnly (s : Schema) (external : Assoc Schema) (value : Value) (good : Lookup → Prop) :
    Prop :=
  ∀ probe, (∀ l, good l → probe l = pure ()) →
    (documentWatched probe s external value).run {} = (document s external value).run {}

end Checking

/-! ## Runs that do the same -/

/-- What a run does to its registry: it stays right, and what is recorded stays recorded. -/
structure ScopeRegistry.Moves (s : Schema) (external : Assoc Schema) (r r' : ScopeRegistry) :
    Prop where
  sound : r'.Sound s external
  exact : r'.Exact s external
  keeps : r.Extends r'

/-- A scope has what names mean, by layers and by places. -/
structure Scope.Orients (s : Schema) (external : Assoc Schema) (r : ScopeRegistry) (scope : Scope)
    (env : Env) (meaning : String → Option Definition) : Prop where
  sees : Scope.Sees s external r scope env
  holds : scope.Holds meaning

/-- `Alike registry st m m'`: from `st` the two runs do the same; the registry stays right. -/
structure Alike {ε σ α : Type} (s : Schema) (external : Assoc Schema)
    (registry : σ → ScopeRegistry) (st : σ) (m m' : ExceptT ε (StateM σ) α) : Prop where
  run_eq : m.run st = m'.run st
  moves : (registry st).Moves s external (registry (m'.run st).2)

/-- A computation that leaves the registry as it is. -/
def Quiet {ε σ α : Type} (registry : σ → ScopeRegistry) (m : ExceptT ε (StateM σ) α) : Prop :=
  ∀ st, registry (m.run st).2 = registry st

/-- Two runs over a fragment do the same, whatever its scope is and wherever they start, as long as
scope and registry are right. -/
def AlikeOver {ε σ α : Type} (s : Schema) (external : Assoc Schema) (registry : σ → ScopeRegistry)
    (place : Place) (t : Schema) (run run' : Scope → ExceptT ε (StateM σ) α) : Prop :=
  ∀ ⦃st env scope⦄, Fragment s external place env t →
    (registry st).Moves s external (registry st) →
    scope.Orients s external (registry st) env (around? s external place) →
    Alike s external registry st (run scope) (run' scope)

/-- The states of two runs that have done the same since the registry was `r`. -/
def SameSince {σ : Type} (s : Schema) (external : Assoc Schema) (registry : σ → ScopeRegistry)
    (r : ScopeRegistry) (st st' : σ) : Prop :=
  st' = st ∧ r.Moves s external (registry st)

section

variable {s t : Schema} {external : Assoc Schema} {r r' r'' : ScopeRegistry}

theorem ScopeRegistry.Moves.refl (hs : r.Sound s external) (he : r.Exact s external) :
    r.Moves s external r :=
  ⟨hs, he, .refl r⟩

theorem ScopeRegistry.Moves.trans (h : r.Moves s external r') (h' : r'.Moves s external r'') :
    r.Moves s external r'' :=
  ⟨h'.sound, h'.exact, h.keeps.trans h'.keeps⟩

/-- The state that a run starts from. -/
theorem ScopeRegistry.Moves.here (h : r.Moves s external r') : r'.Moves s external r' :=
  .refl h.sound h.exact

section

variable {scope : Scope} {place : Place} {env : Env} {meaning : String → Option Definition}

theorem Scope.Orients.mono (h : scope.Orients s external r env meaning)
    (hr : r.Moves s external r') : scope.Orients s external r' env meaning :=
  ⟨h.sees.mono hr.keeps, h.holds⟩

theorem Scope.Orients.entered (hd : DistinctNames s external) (hr : r.Moves s external r)
    (hf : Fragment s external place env t)
    (h : scope.Orients s external r env (around? s external place)) :
    r.Moves s external (r.entered place t scope) ∧
      (scope.entered place t).Orients s external (r.entered place t scope) (t.inner env)
        (lexical? s external place) := by
  obtain ⟨hsound, hsees, hkeeps⟩ := Scope.sound_entered hd hr.sound h.sees hf
  have hexact := ScopeRegistry.exact_entered hd hr.exact h.sees.genuine hf h.holds
  exact ⟨⟨hsound, hexact, hkeeps⟩, hsees, Scope.holds_entered hd hf h.holds⟩

theorem Scope.Orients.visible (hd : DistinctNames s external) (hr : r.Moves s external r)
    (h : scope.Orients s external r env meaning) {name : String} {definition : Definition}
    (hget : scope.get? name = some definition) :
    ∃ env', Fragment s external definition.place env' definition.schema ∧
      (r.visible scope (name, definition.place)).Orients s external r env'
        (around? s external definition.place) := by
  obtain ⟨env', hf⟩ := h.sees.genuine.fragment _ (Assoc.mem_of_get? hget)
  exact ⟨env', hf, Scope.sees_visible hd hr.sound h.sees.genuine hget hf,
    Scope.holds_visible hd hr.sound hr.exact h.sees.genuine hget⟩

/-- In a lexically scoped document a reference is looked up, and so is what its definition sees. -/
theorem Scope.Orients.exists_visible (hd : DistinctNames s external)
    (hs : LexicallyScoped s external) (hr : r.Moves s external r)
    (hf : Fragment s external place env t)
    (h : scope.Orients s external r (t.inner env) (lexical? s external place)) {text : String}
    (htext : t.reference = some text) :
    ∃ name definition env', definitionName? text = some name ∧
      scope.get? name = some definition ∧
      Fragment s external definition.place env' definition.schema ∧
      (r.visible scope (name, definition.place)).Orients s external r env'
        (around? s external definition.place) := by
  obtain ⟨name, definition, hname, hlexical⟩ := hs.exists_definition hd hf htext
  have hget := h.holds name definition hlexical
  obtain ⟨env', hf', hvisible⟩ := h.visible hd hr hget
  exact ⟨name, definition, env', hname, hget, hf', hvisible⟩

/-- In a lexically scoped document the reference of a fragment is found to name what its place says
it means. -/
theorem Scope.Orients.isLexical (hd : DistinctNames s external) (hs : LexicallyScoped s external)
    (hf : Fragment s external place env t)
    (h : scope.Orients s external r env (around? s external place)) {text : String}
    (htext : t.reference = some text) :
    Lookup.IsLexical s external ⟨place, text, (scope.entered place t).resolve? text⟩ := by
  obtain ⟨name, definition, hname, hlexical⟩ := hs.exists_definition hd hf htext
  have hget := Scope.holds_entered hd hf h.holds name definition hlexical
  exact ⟨name, definition, hname, hlexical, Scope.resolve?_of_get? hname hget⟩

end

variable {ε σ α : Type} {registry : σ → ScopeRegistry} {st : σ} {m m' : ExceptT ε (StateM σ) α}

theorem registry_bind_of_quiet {β : Type} {f : α → ExceptT ε (StateM σ) β}
    (h : ∀ a, Quiet registry (f a)) : registry ((m >>= f).run st).2 = registry (m.run st).2 := by
  rw [run_bind_eq]
  rcases m.run st with ⟨_ | a, st'⟩
  · rfl
  · exact h a st'

theorem InStep.alike
    (h : InStep (SameSince s external registry (registry st)) (fun _ : ε => True) m m')
    (hst : (registry st).Moves s external (registry st)) : Alike s external registry st m m' := by
  obtain ⟨⟨hstates, hmoves⟩, hsame, -⟩ := h st st ⟨rfl, hst⟩
  exact ⟨(Prod.ext hsame hstates).symm, hstates.symm ▸ hmoves⟩

theorem inStep_of_alike
    (h : ∀ st, r.Moves s external (registry st) → Alike s external registry st m m') :
    InStep (SameSince s external registry r) (fun _ : ε => True) m m' := by
  rintro _ st ⟨rfl, hst⟩
  obtain ⟨hrun, hmoves⟩ := h st hst
  rw [hrun]
  exact ⟨⟨rfl, hst.trans hmoves⟩, rfl, fun _ _ => trivial⟩

/-- Two runs that enter a fragment and then do the same. -/
theorem Enters.alike {record : ScopeRegistry → σ → σ}
    {enter : Schema → Place → Scope → ExceptT ε (StateM σ) Scope}
    (he : Enters registry record enter) (hd : DistinctNames s external)
    (hst : (registry st).Moves s external (registry st)) {place : Place} {env : Env}
    (hf : Fragment s external place env t) {scope : Scope}
    (hscope : scope.Orients s external (registry st) env (around? s external place))
    {k k' : Scope → ExceptT ε (StateM σ) α}
    (h : ∀ st', (registry st').Moves s external (registry st') →
      (scope.entered place t).Orients s external (registry st') (t.inner env)
        (lexical? s external place) →
      Alike s external registry st' (k (scope.entered place t)) (k' (scope.entered place t))) :
    Alike s external registry st (enter t place scope >>= k) (enter t place scope >>= k') := by
  obtain ⟨hmoves, hinner⟩ := hscope.entered hd hst hf
  rw [← he.registry_record ((registry st).entered place t scope) st] at hmoves hinner
  obtain ⟨hrun, hmoves'⟩ := h _ hmoves.here hinner
  refine ⟨?_, ?_⟩
  · rw [he.run_bind, he.run_bind]
    exact hrun
  · rw [he.run_bind]
    exact hmoves.trans hmoves'

/-- In a lexically scoped document two runs do the same at the reference of a fragment, if they do
over the body of what it is found to name. -/
theorem inStep_of_reference {place : Place} {env : Env} {scope : Scope} {text : String}
    {follow follow' : String → Definition → Scope → ExceptT ε (StateM σ) α}
    (hd : DistinctNames s external) (hs : LexicallyScoped s external)
    (hf : Fragment s external place env t)
    (hscope : scope.Orients s external r (t.inner env) (lexical? s external place))
    (htext : t.reference = some text)
    (hfollow : ∀ name definition, AlikeOver s external registry definition.place definition.schema
      (follow name definition) (follow' name definition))
    (h : ∀ {st name definition}, definitionName? text = some name →
      scope.get? name = some definition → (registry st).Moves s external (registry st) →
      (∀ st', registry st' = registry st → Alike s external registry st'
        (follow name definition ((registry st).visible scope (name, definition.place)))
        (follow' name definition ((registry st).visible scope (name, definition.place)))) →
      Alike s external registry st m m') :
    InStep (SameSince s external registry r) (fun _ : ε => True) m m' := by
  refine inStep_of_alike fun st hm => ?_
  obtain ⟨name, definition, env', hname, hget, hf', hvisible⟩ :=
    (hscope.mono hm).exists_visible hd hs hm.here hf htext
  refine h hname hget hm.here fun st' hst' => hfollow name definition hf' ?_ ?_
  · exact hst'.symm ▸ hm.here
  · exact hst'.symm ▸ hvisible

/-- Runs over the bodies of definitions do the same, through however many references, if they do
with none left and one more does not matter. -/
theorem alikeOver_follow {ι : Type}
    {follow follow' : Nat → String → Definition → ι → Scope → ExceptT ε (StateM σ) α}
    (hzero : ∀ name definition i scope,
      follow 0 name definition i scope = follow' 0 name definition i scope)
    (hquiet : ∀ name definition i scope, Quiet registry (follow' 0 name definition i scope))
    (hsucc : ∀ jumps, (∀ name definition i, AlikeOver s external registry definition.place
        definition.schema (follow jumps name definition i) (follow' jumps name definition i)) →
      ∀ name definition i, AlikeOver s external registry definition.place definition.schema
        (follow (jumps + 1) name definition i) (follow' (jumps + 1) name definition i))
    (jumps : Nat) (name : String) (definition : Definition) (i : ι) :
    AlikeOver s external registry definition.place definition.schema
      (follow jumps name definition i) (follow' jumps name definition i) := by
  induction jumps generalizing name definition i with
  | zero =>
    intro st env scope _ hst _
    rw [hzero]
    refine ⟨rfl, ?_⟩
    rw [hquiet]
    exact hst
  | succ jumps ih => exact hsucc jumps ih name definition i

end

/-! ## Lowering -/

namespace Lowering

section

variable {s t : Schema} {external : Assoc Schema} {st : Lowering} {place : Place} {env : Env}
  {layout : Layout} {scope : Scope}
  {follow follow' : String → Definition → Layout → Scope → LowerM ShapeId}

theorem keepsShapes_sameSince (r : ScopeRegistry) :
    KeepsShapes (SameSince s external registry r) (fun _ => True) id where
  descend _ := rfl
  error _ _ := trivial
  size h := by rw [h.1]
  push := by
    rintro st _ shape ⟨rfl, hmoves⟩ -
    rw [Shape.relaid_id]
    exact ⟨rfl, hmoves⟩

theorem quiet_closeReference (id : ShapeId) (name : String) (target : ShapeId) :
    Quiet registry (closeReference id name target) := by
  intro st
  rw [run_closeReference]

theorem alike_reference {text name : String} {definition : Definition}
    (hname : definitionName? text = some name) (hget : scope.get? name = some definition)
    (hst : st.registry.Moves s external st.registry)
    (hfollow : ∀ st', st'.registry = st.registry → Alike s external registry st'
      (follow name definition layout (st.registry.visible scope (name, definition.place)))
      (follow' name definition layout (st.registry.visible scope (name, definition.place)))) :
    Alike s external registry st (reference follow text layout scope)
      (reference follow' text layout scope) := by
  cases hlookup : st.references.lookup (name, definition.place) with
  | some id =>
    refine ⟨?_, ?_⟩
    · rw [reference_known hname hget hlookup, reference_known hname hget hlookup]
    · rw [reference_known hname hget hlookup]
      exact hst
  | none =>
    have hclose := hfollow (st.define (name, definition.place) name) rfl
    refine ⟨?_, ?_⟩
    · rw [reference_new hname hget hlookup, reference_new hname hget hlookup, run_bind_eq,
        run_bind_eq, hclose.run_eq]
    · have hmoves := hclose.moves
      rw [← registry_bind_of_quiet (quiet_closeReference st.shapes.size name)] at hmoves
      rw [reference_new hname hget hlookup]
      exact hmoves

/-- A fragment is lowered the same if nothing is done at its reference. -/
theorem stepWith_eq {probe : Lookup → LowerM Unit} {parts : Schema.Parts Lowerer}
    (h : ∀ text, t.reference = some text →
      probe ⟨place, text, (scope.entered place t).resolve? text⟩ = pure ()) :
    stepWith probe follow t parts place layout scope = step follow t parts place layout scope := by
  refine ExceptT.ext (funext fun st => ?_)
  unfold step stepWith
  rw [run_enter_bind, run_enter_bind]
  cases htext : t.reference with
  | none => rfl
  | some text =>
    dsimp only
    rw [referenceWith, h text htext]
    rfl

/-- Nothing is done at the references of a fragment, by induction over fragments. -/
theorem alike_fold {probe : Lookup → LowerM Unit}
    (hprobe : ∀ l, l.IsLexical s external → probe l = pure ())
    (hd : DistinctNames s external) (hs : LexicallyScoped s external)
    (hfollow : ∀ name definition layout, AlikeOver s external registry definition.place
      definition.schema (follow name definition layout) (follow' name definition layout)) :
    AlikeOver s external registry place t (t.fold (stepWith probe follow) place layout)
      (t.fold (step follow') place layout) := by
  induction t using Schema.induction generalizing place layout with
  | h t ih =>
    intro st env scope hf hst hscope
    rw [Schema.fold_eq, Schema.fold_eq, stepWith_eq fun text htext =>
      hprobe _ (hscope.isLexical hd hs hf htext), step_eq, step_eq]
    refine enters.alike hd hst hf hscope fun st' hst' hinner => ?_
    split_ifs
    · exact ⟨rfl, hst'⟩
    refine (inStep_byCriterion (keepsShapes_sameSince st'.registry) (fun text htext => ?_)
      fun e he _ layout' => inStep_of_alike fun st'' hm => ?_).alike hst'
    · exact inStep_of_reference hd hs hf hinner htext (hfollow · · layout) alike_reference
    · refine ih e he (.child hf he) hm.here ?_
      rw [around?_child he]
      exact hinner.mono hm

end

end Lowering

/-! ## Checking -/

namespace Checking

section

variable {s t : Schema} {external : Assoc Schema} {st : Checking} {place : Place} {env : Env}
  {value : Value} {path : Path} {scope : Scope}
variable {follow follow' : String → Definition → Value → Path → Scope → CheckM Unit}

theorem alike_inside {key : DefinitionKey} {m m' : CheckM Unit}
    (h : Alike s external registry { st with active := (key, path) :: st.active } m m') :
    Alike s external registry st (inside key path m) (inside key path m') := by
  obtain ⟨hrun, hmoves⟩ := h
  rcases hres : m'.run { st with active := (key, path) :: st.active } with ⟨outcome, st'⟩
  rw [hres] at hrun hmoves
  refine ⟨(run_inside hrun).trans (run_inside hres).symm, ?_⟩
  rw [run_inside hres]
  exact hmoves

theorem alike_reference {text name : String} {definition : Definition}
    (hname : definitionName? text = some name) (hget : scope.get? name = some definition)
    (hst : st.registry.Moves s external st.registry)
    (hfollow : ∀ st', st'.registry = st.registry → Alike s external registry st'
      (follow name definition value path (st.registry.visible scope (name, definition.place)))
      (follow' name definition value path (st.registry.visible scope (name, definition.place)))) :
    Alike s external registry st (reference follow text value path scope)
      (reference follow' text value path scope) := by
  have hboth : Alike s external registry st
      (if st.active.contains ((name, definition.place), path) = true then
        fail path (.selfReference name)
      else inside (name, definition.place) path (follow name definition value path
        (st.registry.visible scope (name, definition.place))))
      (if st.active.contains ((name, definition.place), path) = true then
        fail path (.selfReference name)
      else inside (name, definition.place) path (follow' name definition value path
        (st.registry.visible scope (name, definition.place)))) := by
    split_ifs
    · exact ⟨rfl, hst⟩
    · exact alike_inside (hfollow _ rfl)
  refine ⟨?_, ?_⟩
  · rw [reference_eq hname hget, reference_eq hname hget]
    exact hboth.run_eq
  · rw [reference_eq hname hget]
    exact hboth.moves

/-- A value is checked against a fragment the same if nothing is done at its reference. -/
theorem stepWith_eq {probe : Lookup → CheckM Unit} {parts : Schema.Parts Checker}
    (h : ∀ text, t.reference = some text →
      probe ⟨place, text, (scope.entered place t).resolve? text⟩ = pure ()) :
    stepWith probe follow t parts place value path scope =
      step follow t parts place value path scope := by
  refine ExceptT.ext (funext fun st => ?_)
  unfold step stepWith
  rw [run_enter_bind, run_enter_bind]
  cases htext : t.reference with
  | none => rfl
  | some text =>
    dsimp only
    rw [referenceWith, h text htext]
    rfl

/-- Nothing is done at the references of a fragment, by induction over fragments. -/
theorem alike_fold {probe : Lookup → CheckM Unit}
    (hprobe : ∀ l, l.IsLexical s external → probe l = pure ())
    (hd : DistinctNames s external) (hs : LexicallyScoped s external)
    (hfollow : ∀ name definition value path, AlikeOver s external registry definition.place
      definition.schema (follow name definition value path) (follow' name definition value path)) :
    AlikeOver s external registry place t (t.fold (stepWith probe follow) place value path)
      (t.fold (step follow') place value path) := by
  induction t using Schema.induction generalizing place value path with
  | h t ih =>
    intro st env scope hf hst hscope
    rw [Schema.fold_eq, Schema.fold_eq, stepWith_eq fun text htext =>
      hprobe _ (hscope.isLexical hd hs hf htext), step_eq, step_eq]
    refine enters.alike hd hst hf hscope fun st' hst' hinner => ?_
    refine (inStep_byCriterion keepsValues_any trivial (fun text htext => ?_)
      fun e he _ value' path' _ => inStep_of_alike fun st'' hm => ?_).alike hst'
    · exact inStep_of_reference hd hs hf hinner htext (hfollow · · value path) alike_reference
    · refine ih e he (.child hf he) hm.here ?_
      rw [around?_child he]
      exact hinner.mono hm

end

end Checking

/-! ## Whole runs -/

section

variable {s : Schema} {external : Assoc Schema}

/-- What is known where a run starts. -/
theorem orients_external (hd : DistinctNames s external) :
    let r : ScopeRegistry := ScopeRegistry.declare {} (Scope.ofExternal external)
    r.Moves s external r ∧
      (Scope.ofExternal external).Orients s external r [external] (around? s external []) := by
  obtain ⟨hsound, hsees⟩ := Scope.sound_external hd
  exact ⟨.refl hsound (ScopeRegistry.exact_external s external), hsees, fun _ _ h => h⟩

/-- **References are lexically scoped.** At every reference that lowering or checking comes to, by
whatever references it got there, what it finds is the definition of the innermost fragment around
the reference that declares the name, or else the external one. -/
theorem visitsOnly_lexical (hd : DistinctNames s external) (hs : LexicallyScoped s external) :
    (∀ layout, Lowering.VisitsOnly s external layout (Lookup.IsLexical s external)) ∧
      ∀ value, Checking.VisitsOnly s external value (Lookup.IsLexical s external) := by
  obtain ⟨hst, hscope⟩ := orients_external hd
  constructor
  · intro layout probe hprobe
    have hfollow : ∀ jumps name definition layout, AlikeOver s external Lowering.registry
        definition.place definition.schema
        (Lowering.followWatched probe jumps name definition layout)
        (Lowering.follow jumps name definition layout) :=
      alikeOver_follow (fun _ _ _ _ => rfl) (fun _ _ _ _ _ => rfl)
        fun _ ih _ _ _ => Lowering.alike_fold hprobe hd hs ih
    have halike : AlikeOver s external Lowering.registry [] s
        (s.fold (Lowering.stepWith probe
          (Lowering.followWatched probe (s.definitionTotal external))) [] layout)
        (s.fold (Lowering.step (Lowering.follow (s.definitionTotal external))) [] layout) :=
      Lowering.alike_fold hprobe hd hs (hfollow _)
    have hrun : Alike s external Lowering.registry
        { registry := ScopeRegistry.declare {} (Scope.ofExternal external) } _ _ :=
      halike .root hst hscope
    exact hrun.run_eq
  · intro value probe hprobe
    have hfollow : ∀ jumps name definition (i : Value × Path), AlikeOver s external
        Checking.registry definition.place definition.schema
        (Checking.followWatched probe jumps name definition i.1 i.2)
        (Checking.follow jumps name definition i.1 i.2) :=
      alikeOver_follow (fun _ _ _ _ => rfl) (fun _ _ _ _ _ => rfl)
        fun _ ih _ _ _ => Checking.alike_fold hprobe hd hs fun name definition value path =>
          ih name definition (value, path)
    have halike : AlikeOver s external Checking.registry [] s
        (s.fold (Checking.stepWith probe
          (Checking.followWatched probe (Checking.jumps s external value))) [] value [])
        (s.fold (Checking.step (Checking.follow (Checking.jumps s external value))) [] value []) :=
      Checking.alike_fold hprobe hd hs fun name definition value path =>
        hfollow _ name definition (value, path)
    have hrun : Alike s external Checking.registry
        { registry := ScopeRegistry.declare {} (Scope.ofExternal external) } _ _ :=
      halike .root hst hscope
    exact hrun.run_eq

end

/-- A definition `a` that refers to `x`, and a property that hides `x` and refers to `a`. -/
def shadowingSchema : Schema :=
  { definitions := some [("x", { types := some (.one .string) }),
      ("a", { reference := some "#/$defs/x" })]
    types := some (.one .object)
    properties := some [("p",
      { definitions := some [("x", { types := some (.one .number) })]
        reference := some "#/$defs/a" })] }

/-- Lowering comes to the reference inside `a` from the property, and finds the outer `x`. -/
theorem visitsOnly_shadowingSchema :
    DistinctNames shadowingSchema [] ∧ LexicallyScoped shadowingSchema [] ∧
      ¬ Lowering.VisitsOnly shadowingSchema [] ⟨true, 4, 0⟩
        (fun l => l.place ≠ [.definition "a"]) ∧
      (lexical? shadowingSchema [] [.definition "a"] "x").map Definition.place =
        some [.definition "x"] ∧
      Lowering.VisitsOnly shadowingSchema [] ⟨true, 4, 0⟩
        (Lookup.IsLexical shadowingSchema []) := by
  have hd : DistinctNames shadowingSchema [] :=
    ⟨by simp [Assoc.keys], by decide +kernel, by simp⟩
  have hs : LexicallyScoped shadowingSchema [] := ⟨by decide +kernel, by simp⟩
  refine ⟨hd, hs, fun h => ?_, by decide +kernel, (visitsOnly_lexical hd hs).1 _⟩
  have hrun := h
    (fun l => if l.place = [.definition "a"] then throw (.unresolvedReference l.text)
      else pure ()) fun l hl => if_neg hl
  have hstops := congrArg (fun result => result.1.isOk) hrun
  revert hstops
  decide +kernel

end SchemaGrammar
