import SchemaGrammar.Proofs.CheckRun
import SchemaGrammar.Proofs.LexicalPlaces
import SchemaGrammar.Proofs.LoweredTable

/-!
# Runs in step

Two runs are in step if they end alike wherever they start from related states: with the same
result, or with the same error, and again in related states. What a fragment does is put together
from what its parts do, so two runs over one fragment are in step if they are at its references.
They may see different definitions.

The relation between the states is not fixed here. What is asked of it, and what may be assumed of
fragments and scopes on the way, is said once for lowering and once for checking. The two runs of
lowering may differ in their layouts.

## Main definitions

* `InStep`: two runs in step.
* `Enters`: how a fragment is entered in a state with a registry.
* `Shape.relaid`: a shape in another layout.
* `Lowering.KeepsStep`, `Checking.KeepsStep`: what keeps two runs over one fragment in step.

## Main results

* `Lowering.inStep_fold`, `Checking.inStep_fold`: two runs over a fragment are in step if they are
  at references.
-/

namespace SchemaGrammar

open Json (Value)

/-- How two runs end in step: in related states, with one result. Errors are as `F` says. -/
structure EndInStep {ε σ α : Type} (S : σ → σ → Prop) (F : ε → Prop) (r r' : Except ε α × σ) :
    Prop where
  states : S r.2 r'.2
  same : r'.1 = r.1
  errors : ∀ e, r.1 = .error e → F e

/-- From related states, two runs end in step. -/
def InStep {ε σ α : Type} (S : σ → σ → Prop) (F : ε → Prop) (m m' : ExceptT ε (StateM σ) α) :
    Prop :=
  ∀ st st', S st st' → EndInStep S F (m.run st) (m'.run st')

section

variable {ε σ α β γ : Type} {S T : σ → σ → Prop} {F : ε → Prop}

theorem EndInStep.ok {st st' : σ} (h : S st st') (a : α) :
    EndInStep S F (.ok a, st) (.ok a, st') :=
  ⟨h, rfl, fun _ he => by cases he⟩

theorem EndInStep.error {st st' : σ} (h : S st st') {e : ε} (he : F e) :
    EndInStep S F (α := α) (.error e, st) (.error e, st') :=
  ⟨h, rfl, fun _ heq => by cases heq; exact he⟩

theorem EndInStep.mono {r r' : Except ε α × σ} (h : EndInStep S F r r')
    (hS : ∀ st st', S st st' → T st st') : EndInStep T F r r' :=
  ⟨hS _ _ h.states, h.same, h.errors⟩

theorem EndInStep.bind {m m' : ExceptT ε (StateM σ) α} {f f' : α → ExceptT ε (StateM σ) β}
    {st st' : σ} (h : EndInStep S F (m.run st) (m'.run st'))
    (hS : ∀ st st', S st st' → T st st')
    (hf : ∀ a st st', S st st' → EndInStep T F ((f a).run st) ((f' a).run st')) :
    EndInStep T F ((m >>= f).run st) ((m' >>= f').run st') := by
  rw [run_bind_eq, run_bind_eq]
  obtain ⟨hstates, hsame, herrors⟩ := h
  rcases hrun : m.run st with ⟨e | a, st₁⟩
  · rw [hrun] at hstates hsame herrors
    rw [hsame]
    exact .error (hS _ _ hstates) (herrors e rfl)
  · rw [hrun] at hstates hsame
    rw [hsame]
    exact hf a _ _ hstates

theorem InStep.pure (a : α) : InStep S F (pure a) (pure a) := fun _ _ h => .ok h a

theorem inStep_throw {e : ε} (he : F e) :
    InStep S F (throw e : ExceptT ε (StateM σ) α) (throw e) :=
  fun _ _ h => .error h he

theorem InStep.bind {m m' : ExceptT ε (StateM σ) α} {f f' : α → ExceptT ε (StateM σ) β}
    (h : InStep S F m m') (hf : ∀ a, InStep S F (f a) (f' a)) :
    InStep S F (m >>= f) (m' >>= f') :=
  fun st st' hst => (h st st' hst).bind (fun _ _ h => h) hf

theorem InStep.ite {c : Prop} [Decidable c] {m m' k k' : ExceptT ε (StateM σ) α}
    (hm : InStep S F m m') (hk : InStep S F k k') :
    InStep S F (if c then m else k) (if c then m' else k') := by
  split_ifs
  · exact hm
  · exact hk

theorem inStep_lift {m : Except ε α} (h : ∀ e, m = .error e → F e) :
    InStep S F (monadLift m : ExceptT ε (StateM σ) α) (monadLift m) := by
  intro st st' hst
  cases m with
  | error e => exact .error hst (h e rfl)
  | ok a => exact .ok hst a

theorem inStep_mapM {f f' : γ → ExceptT ε (StateM σ) α} {list : List γ}
    (h : ∀ x ∈ list, InStep S F (f x) (f' x)) : InStep S F (list.mapM f) (list.mapM f') := by
  induction list with
  | nil => exact .pure []
  | cons x list ih =>
    rw [List.mapM_cons, List.mapM_cons]
    exact (h x List.mem_cons_self).bind fun a =>
      (ih fun y hy => h y (List.mem_cons_of_mem x hy)).bind fun results => .pure _

theorem inStep_forM {f f' : γ → ExceptT ε (StateM σ) Unit} {list : List γ}
    (h : ∀ x ∈ list, InStep S F (f x) (f' x)) : InStep S F (list.forM f) (list.forM f') := by
  induction list with
  | nil => exact .pure ()
  | cons x list ih =>
    exact (h x List.mem_cons_self).bind fun _ => ih fun y hy => h y (List.mem_cons_of_mem x hy)

end

/-! ## Entering fragments -/

/-- How a fragment is entered in a state with a registry: the scope inside is recorded for its own
definitions, and the run goes on with that scope. -/
structure Enters {ε σ : Type} (registry : σ → ScopeRegistry) (record : ScopeRegistry → σ → σ)
    (enter : Schema → Place → Scope → ExceptT ε (StateM σ) Scope) : Prop where
  registry_record : ∀ r st, registry (record r st) = r
  run_bind : ∀ {α : Type} (t : Schema) (place : Place) (scope : Scope)
    (k : Scope → ExceptT ε (StateM σ) α) (st : σ), (enter t place scope >>= k).run st =
      (k (scope.entered place t)).run (record ((registry st).entered place t scope) st)

theorem Lowering.enters :
    Enters Lowering.registry (fun r st => { st with registry := r }) Lowering.enter where
  registry_record _ _ := rfl
  run_bind t place scope k st := Lowering.run_enter_bind t place scope k st

theorem Checking.enters :
    Enters Checking.registry (fun r st => { st with registry := r }) Checking.enter where
  registry_record _ _ := rfl
  run_bind t place scope k st := Checking.run_enter_bind t place scope k st

section

variable {ε σ α : Type} {S : σ → σ → Prop} {F : ε → Prop} {registry : σ → ScopeRegistry}
  {record : ScopeRegistry → σ → σ} {enter : Schema → Place → Scope → ExceptT ε (StateM σ) Scope}
  {t : Schema} {place : Place} {scope : Scope}

theorem Enters.inStep (he : Enters registry record enter) {k k' : Scope → ExceptT ε (StateM σ) α}
    (hrecord : ∀ st st', S st st' → S (record ((registry st).entered place t scope) st)
      (record ((registry st').entered place t scope) st'))
    (h : InStep S F (k (scope.entered place t)) (k' (scope.entered place t))) :
    InStep S F (enter t place scope >>= k) (enter t place scope >>= k') := by
  intro st st' hst
  rw [he.run_bind, he.run_bind]
  exact h _ _ (hrecord st st' hst)

end

/-! ## Shapes in another layout -/

/-- A shape with its layout changed. -/
def Shape.relaid (f : Layout → Layout) : Shape → Shape
  | .array shape => .array { shape with layout := f shape.layout }
  | .object shape => .object { shape with layout := f shape.layout }
  | .anyJson layout => .anyJson (f layout)
  | .terminal t => .terminal t
  | .enumeration members => .enumeration members
  | .union members => .union members
  | .reference name target => .reference name target

/-- Whether a shape stands for a definition. -/
def Shape.isReference : Shape → Bool
  | .reference _ _ => true
  | _ => false

@[simp] theorem Shape.relaid_id (shape : Shape) : shape.relaid id = shape := by
  cases shape <;> rfl

/-! ## Lowering -/

namespace Lowering

/-- The state with one more shape. -/
def pushed (st : Lowering) (shape : Shape) : Lowering :=
  { st with shapes := (st.shapes.push shape).2 }

/-- What keeps two runs of lowering in step between references, the second with layouts changed by
`f`. Of errors only the one about too many references may be left out. -/
structure KeepsShapes (S : Lowering → Lowering → Prop) (F : CompileError → Prop)
    (f : Layout → Layout) : Prop where
  descend : ∀ layout, f layout.descend = (f layout).descend
  error : ∀ e, (∀ name, e ≠ .exhausted name) → F e
  size : ∀ {st st'}, S st st' → st'.shapes.size = st.shapes.size
  push : ∀ {st st'} {shape : Shape}, S st st' → shape.isReference = false →
    S (st.pushed shape) (st'.pushed (shape.relaid f))

/-- What keeps two runs of lowering over one fragment in step. Fragments are as `Good` says and
scopes as `Fine` says. -/
structure KeepsStep (S : Lowering → Lowering → Prop) (F : CompileError → Prop)
    (f : Layout → Layout) (Good : Place → Schema → Prop) (Fine : Scope → Prop) : Prop
    extends KeepsShapes S F f where
  child : ∀ {place t}, Good place t → ∀ e ∈ t.children, Good (e.1 :: place) e.2
  fine : ∀ {place t scope}, Good place t → Fine scope → Fine (scope.entered place t)
  enter : ∀ {st st' place t scope}, S st st' → Good place t → Fine scope →
    S { st with registry := st.registry.entered place t scope }
      { st' with registry := st'.registry.entered place t scope }

section

variable {S : Lowering → Lowering → Prop} {F : CompileError → Prop} {f : Layout → Layout}
  {Good : Place → Schema → Prop} {Fine : Scope → Prop} {t : Schema} {place : Place}
  {layout : Layout} {scope scope' : Scope} {lowerer lowerer' : Schema → Lowerer}

theorem KeepsShapes.unsupported {α : Type} (hk : KeepsShapes S F f) (construct : Unsupported) :
    InStep S F (Lowering.unsupported construct : LowerM α) (Lowering.unsupported construct) :=
  inStep_throw (hk.error _ fun _ => by simp)

theorem inStep_push (hk : KeepsShapes S F f) (shape : Shape) (h : shape.isReference = false) :
    InStep S F (push shape) (push (shape.relaid f)) := by
  intro st st' hst
  refine ⟨hk.push hst h, ?_, fun e he => by cases he⟩
  exact congrArg Except.ok (hk.size hst)

theorem inStep_literal (hk : KeepsShapes S F f) (value : Value) :
    InStep S F (literal value) (literal value) := by
  refine (inStep_lift fun e he => hk.error e fun name => ?_).bind fun terminal => ?_
  · rintro rfl
    cases value <;> cases he
  · exact inStep_push hk _ rfl

theorem inStep_enumeration (hk : KeepsShapes S F f) (values : List Value) :
    InStep S F (enumeration values) (enumeration values) := by
  unfold enumeration
  exact .ite (hk.unsupported _)
    ((inStep_mapM fun value _ => inStep_literal hk value).bind fun ids => inStep_push hk _ rfl)

theorem inStep_choice (hk : KeepsShapes S F f) (none? : Unsupported) (ids : List ShapeId) :
    InStep S F (choice none? ids) (choice none? ids) := by
  unfold choice
  split
  · exact hk.unsupported none?
  · exact .pure _
  · exact inStep_push hk _ rfl

theorem inStep_stringTerminal (hk : KeepsShapes S F f) (t : Schema) :
    InStep S F (monadLift (stringTerminal t) : LowerM Terminal) (monadLift (stringTerminal t)) := by
  refine inStep_lift fun e he => hk.error e fun name => ?_
  rintro rfl
  unfold stringTerminal at he
  split at he
  · cases he
  · cases he
  · split_ifs at he
    cases he

theorem inStep_checkItemBounds (hk : KeepsShapes S F f) (t : Schema) :
    InStep S F (checkItemBounds t) (checkItemBounds t) := by
  unfold checkItemBounds
  split
  · exact .ite (hk.unsupported _) (.pure _)
  · exact .pure _

/-- What is known of the lowering of the fragments that a fragment is made of, except of those that
are definitions. -/
def PartsInStep (S : Lowering → Lowering → Prop) (F : CompileError → Prop) (f : Layout → Layout)
    (t : Schema) (lowerer lowerer' : Schema → Lowerer) (place : Place) (scope scope' : Scope) :
    Prop :=
  ∀ e ∈ t.children, e.1.named? = none → ∀ layout,
    InStep S F (lowerer e.2 (e.1 :: place) layout scope)
      (lowerer' e.2 (e.1 :: place) (f layout) scope')

theorem inStep_row {list : List Schema} (placed : Nat → PlaceStep)
    (h : PartsInStep S F f t lowerer lowerer' place scope scope')
    (hmem : ∀ e ∈ list.zipIdx, (placed e.2, e.1) ∈ t.children)
    (hplaced : ∀ i, (placed i).named? = none) :
    InStep S F
      ((list.map lowerer).zipIdx.mapM fun e => e.1 (placed e.2 :: place) layout scope)
      ((list.map lowerer').zipIdx.mapM fun e => e.1 (placed e.2 :: place) (f layout) scope') := by
  rw [List.zipIdx_map, List.mapM_map, List.zipIdx_map, List.mapM_map]
  exact inStep_mapM fun e he => h _ (hmem e he) (hplaced e.2) layout

theorem inStep_additional (hk : KeepsShapes S F f)
    (h : PartsInStep S F f t lowerer lowerer' place scope scope') :
    InStep S F (additional layout place scope (t.parts.map lowerer).additional)
      (additional (f layout) place scope' (t.parts.map lowerer').additional) := by
  rw [Schema.additional_map_parts, Schema.additional_map_parts]
  rcases hmore : t.additional with _ | (_ | _) | c
  · exact .pure none
  · exact .pure none
  · exact (inStep_push hk (.anyJson layout) rfl).bind fun id => .pure (some id)
  · exact (h _ (Schema.additional_mem_children hmore) rfl layout).bind fun id => .pure (some id)

theorem inStep_object (hk : KeepsShapes S F f)
    (h : PartsInStep S F f t lowerer lowerer' place scope scope') :
    InStep S F (object t (t.parts.map lowerer) place layout scope)
      (object t (t.parts.map lowerer') place (f layout) scope') := by
  unfold object
  cases undeclared? t with
  | some key => exact hk.unsupported _
  | none =>
    dsimp only
    rw [Schema.properties_map_parts, Schema.properties_map_parts, List.mapM_map, List.mapM_map,
      ← hk.descend]
    refine (inStep_mapM fun e he => ?_).bind fun properties => ?_
    · exact (h _ (Schema.property_mem_children he) rfl layout.descend).bind fun value => .pure _
    · exact (inStep_additional hk h).bind fun additional =>
        inStep_push hk (.object ⟨properties, additional, layout⟩) rfl

theorem inStep_array (hk : KeepsShapes S F f)
    (h : PartsInStep S F f t lowerer lowerer' place scope scope') :
    InStep S F (array t (t.parts.map lowerer) place layout scope)
      (array t (t.parts.map lowerer') place (f layout) scope') := by
  rw [array_eq, array_eq, ← hk.descend]
  refine (inStep_checkItemBounds hk t).bind fun _ => ?_
  refine (inStep_row .leading h (fun e he => Schema.leading_mem_children he) fun _ => rfl).bind
    fun leading => ?_
  have hitems : InStep S F (furtherItems (t.items.map lowerer) place layout.descend scope)
      (furtherItems (t.items.map lowerer') place (f layout.descend) scope') := by
    cases hitems : t.items with
    | none => exact inStep_push hk (.anyJson layout.descend) rfl
    | some c => exact h _ (Schema.items_mem_children hitems) rfl layout.descend
  exact hitems.bind fun items => inStep_push hk (.array ⟨leading, items, _, _, layout⟩) rfl

theorem inStep_typed (hk : KeepsShapes S F f)
    (h : PartsInStep S F f t lowerer lowerer' place scope scope') (type : TypeName) :
    InStep S F (typed t (t.parts.map lowerer) type place layout scope)
      (typed t (t.parts.map lowerer') type place (f layout) scope') := by
  cases type with
  | object => exact inStep_object hk h
  | array => exact inStep_array hk h
  | string => exact (inStep_stringTerminal hk t).bind fun terminal => inStep_push hk _ rfl
  | number => exact inStep_push hk (.terminal (.number true)) rfl
  | integer => exact inStep_push hk (.terminal (.number false)) rfl
  | boolean => exact inStep_push hk (.terminal .boolean) rfl
  | null => exact inStep_push hk (.terminal .null) rfl

variable {follow follow' : String → Definition → Layout → Scope → LowerM ShapeId}

theorem inStep_byCriterion (hk : KeepsShapes S F f)
    (hreference : ∀ text, t.reference = some text → InStep S F
      (reference follow text layout scope) (reference follow' text (f layout) scope'))
    (h : PartsInStep S F f t lowerer lowerer' place scope scope') :
    InStep S F (byCriterion follow lowerer t t.criterion place layout scope)
      (byCriterion follow' lowerer' t t.criterion place (f layout) scope') := by
  cases hc : t.criterion with
  | reference text => exact hreference text (Schema.reference_of_criterion hc)
  | union placed branches =>
    exact (inStep_row placed h (fun e he => Schema.mem_children_of_criterion hc he)
      (Schema.named?_of_criterion hc)).bind fun ids => inStep_choice hk _ ids
  | constant value => exact inStep_literal hk value
  | enumeration values => exact inStep_enumeration hk values
  | types types =>
    exact (inStep_mapM fun type _ => inStep_typed hk h type).bind fun ids => inStep_choice hk _ ids
  | anything => exact inStep_push hk (.anyJson layout) rfl

/-- Two runs over a fragment are in step if they are at references. -/
theorem inStep_fold (hk : KeepsStep S F f Good Fine)
    (hreference : ∀ text layout scope, Fine scope → InStep S F
      (reference follow text layout scope) (reference follow' text (f layout) scope))
    (hgood : Good place t) (hscope : Fine scope) :
    InStep S F (t.fold (step follow) place layout scope)
      (t.fold (step follow') place (f layout) scope) := by
  induction t using Schema.induction generalizing place layout scope with
  | h t ih =>
    rw [Schema.fold_eq, Schema.fold_eq, step_eq, step_eq]
    have hinner := hk.fine hgood hscope
    refine enters.inStep (fun _ _ hst => hk.enter hst hgood hscope) ?_
    exact .ite (hk.toKeepsShapes.unsupported _)
      (inStep_byCriterion hk.toKeepsShapes (fun text _ => hreference text layout _ hinner)
        fun e he _ layout' => ih e he (hk.child hgood e he) hinner)

end

end Lowering

/-! ## Checking -/

namespace Checking

/-- What keeps two runs of checking in step between references. Values with their places are as
`At` says, and of mismatches only the one about too many references may be left out. -/
structure KeepsValues (F : Failure → Prop) (At : Value → Path → Prop) : Prop where
  error : ∀ {value path mismatch}, At value path → (∀ name, mismatch ≠ .exhausted name) →
    F ⟨path, mismatch⟩
  item : ∀ {values path} {i : Nat} {v}, At (.array values) path → values[i]? = some v →
    At v (.index i :: path)
  member : ∀ {members path key v}, At (.object members) path → (key, v) ∈ members →
    At v (.key key :: path)

theorem keepsValues_any : KeepsValues (fun _ => True) (fun _ _ => True) where
  error _ _ := trivial
  item _ _ := trivial
  member _ _ := trivial

/-- What keeps two runs of checking against one fragment in step. Fragments are as `Good` says and
scopes as `Fine` says. -/
structure KeepsStep (S : Checking → Checking → Prop) (F : Failure → Prop)
    (Good : Place → Schema → Prop) (Fine : Scope → Prop) (At : Value → Path → Prop) : Prop
    extends KeepsValues F At where
  child : ∀ {place t}, Good place t → ∀ e ∈ t.children, Good (e.1 :: place) e.2
  fine : ∀ {place t scope}, Good place t → Fine scope → Fine (scope.entered place t)
  enter : ∀ {st st' place t scope}, S st st' → Good place t → Fine scope →
    S { st with registry := st.registry.entered place t scope }
      { st' with registry := st'.registry.entered place t scope }

section

variable {S : Checking → Checking → Prop} {F : Failure → Prop} {Good : Place → Schema → Prop}
  {Fine : Scope → Prop} {At : Value → Path → Prop} {t : Schema} {place : Place} {value : Value}
  {path : Path} {scope scope' : Scope} {check check' : Schema → Checker} {β : Type}

theorem KeepsValues.fail {α : Type} (hk : KeepsValues F At) (hat : At value path)
    {mismatch : Mismatch} (h : ∀ name, mismatch ≠ .exhausted name) :
    InStep S F (Checking.fail path mismatch : CheckM α) (Checking.fail path mismatch) :=
  inStep_throw (hk.error hat h)

theorem endInStep_attempt {m m' : CheckM Unit} {st st' : Checking}
    (h : EndInStep S F (m.run st) (m'.run st')) {k k' : Option Failure → CheckM β}
    (hk : ∀ outcome, (∀ failure, outcome = some failure → F failure) →
      InStep S F (k outcome) (k' outcome)) :
    EndInStep S F ((attempt m >>= k).run st) ((attempt m' >>= k').run st') := by
  obtain ⟨hstates, hsame, herrors⟩ := h
  rcases hrun : m.run st with ⟨failure | u, st₁⟩ <;> rcases hrun' : m'.run st' with ⟨r', st₁'⟩
  · rw [hrun, hrun'] at hstates hsame
    rw [hrun] at herrors
    cases hsame
    rw [run_bind_of_ok (run_attempt_error hrun), run_bind_of_ok (run_attempt_error hrun')]
    refine hk (some failure) (fun other hother => ?_) _ _ hstates
    cases hother
    exact herrors failure rfl
  · rw [hrun, hrun'] at hstates hsame
    cases hsame
    rw [run_bind_of_ok (run_attempt_ok hrun), run_bind_of_ok (run_attempt_ok hrun')]
    exact hk none (fun _ h => by cases h) _ _ hstates

theorem inStep_attempt {m m' : CheckM Unit} (h : InStep S F m m')
    {k k' : Option Failure → CheckM β}
    (hk : ∀ outcome, (∀ failure, outcome = some failure → F failure) →
      InStep S F (k outcome) (k' outcome)) :
    InStep S F (attempt m >>= k) (attempt m' >>= k') :=
  fun st st' hst => endInStep_attempt (h st st' hst) hk

theorem inStep_firstSuccess {ι : Type} {f f' : ι → CheckM Unit} {list : List ι}
    (h : ∀ x ∈ list, InStep S F (f x) (f' x)) :
    InStep S F (firstSuccess (list.map f)) (firstSuccess (list.map f')) := by
  induction list with
  | nil => exact .pure false
  | cons x list ih =>
    refine inStep_attempt (h x List.mem_cons_self) fun outcome _ => ?_
    cases outcome with
    | none => exact .pure true
    | some failure => exact ih fun y hy => h y (List.mem_cons_of_mem x hy)

theorem inStep_someType {check check' : TypeName → CheckM Unit} {none? : Failure}
    (hnone : F none?) (h : ∀ type, InStep S F (check type) (check' type))
    (types : List TypeName) {first : Option Failure}
    (hfirst : ∀ failure, first = some failure → F failure) :
    InStep S F (someType check value none? types first)
      (someType check' value none? types first) := by
  induction types generalizing first with
  | nil =>
    refine inStep_throw ?_
    cases first with
    | none => exact hnone
    | some failure => exact hfirst failure rfl
  | cons type types ih =>
    rw [someType, someType]
    refine .ite (inStep_attempt (h type) fun outcome houtcome => ?_) (ih hfirst)
    cases outcome with
    | none => exact .pure ()
    | some failure =>
      refine ih fun other hother => ?_
      cases first with
      | none => exact houtcome other hother
      | some earlier => exact hfirst other hother

/-- What is known of the checks of the fragments that a fragment is made of, except of those that
are definitions. -/
def PartsInStep (S : Checking → Checking → Prop) (F : Failure → Prop) (At : Value → Path → Prop)
    (t : Schema) (check check' : Schema → Checker) (place : Place) (scope scope' : Scope) : Prop :=
  ∀ e ∈ t.children, e.1.named? = none → ∀ value path, At value path →
    InStep S F (check e.2 (e.1 :: place) value path scope)
      (check' e.2 (e.1 :: place) value path scope')

theorem inStep_eachItem (h : PartsInStep S F At t check check' place scope scope')
    {leading : List Schema} {index : Nat} {values : List Value}
    (hvalues : ∀ i v, values[i]? = some v → At v (.index (index + i) :: path))
    (hleading : ∀ i c, leading[i]? = some c → (.leading (index + i), c) ∈ t.children) :
    InStep S F (eachItem (t.items.map check) place path scope (leading.map check) index values)
      (eachItem (t.items.map check') place path scope' (leading.map check') index values) := by
  induction values generalizing leading index with
  | nil =>
    have hnil : ∀ (check : Schema → Checker) (scope : Scope), eachItem (t.items.map check) place
        path scope (leading.map check) index [] = pure () := by
      intro check scope
      cases leading <;> rfl
    rw [hnil, hnil]
    exact .pure ()
  | cons value values ih =>
    have hrest : ∀ i v, values[i]? = some v → At v (.index (index + 1 + i) :: path) := by
      intro i v hi
      have hat := hvalues (i + 1) v hi
      rwa [← Nat.add_assoc, Nat.add_right_comm] at hat
    cases leading with
    | nil =>
      rw [List.map_nil, List.map_nil, eachItem_nil_cons, eachItem_nil_cons]
      have hhead : InStep S F (furtherItem (t.items.map check) place path scope index value)
          (furtherItem (t.items.map check') place path scope' index value) := by
        cases hitems : t.items with
        | none => exact .pure ()
        | some c => exact h _ (Schema.items_mem_children hitems) rfl _ _ (hvalues 0 value rfl)
      have htail : InStep S F
          (eachItem (t.items.map check) place path scope (([] : List Schema).map check) (index + 1)
            values)
          (eachItem (t.items.map check') place path scope' (([] : List Schema).map check')
            (index + 1) values) :=
        ih hrest fun i c hi => absurd hi (by simp)
      exact hhead.bind fun _ => htail
    | cons first leading =>
      refine (h _ (hleading 0 first rfl) rfl value _ (hvalues 0 value rfl)).bind fun _ => ?_
      refine ih hrest fun i c hi => ?_
      have hchild := hleading (i + 1) c hi
      rwa [← Nat.add_assoc, Nat.add_right_comm] at hchild

theorem inStep_array (hk : KeepsValues F At)
    (h : PartsInStep S F At t check check' place scope scope') {values : List Value}
    (hat : At (.array values) path) :
    InStep S F (array t (t.parts.map check) place values path scope)
      (array t (t.parts.map check') place values path scope') := by
  unfold array
  rw [Schema.leading_map_parts, Schema.leading_map_parts, List.length_map, List.length_map]
  refine .ite (inStep_eachItem h (fun i v hi => ?_) fun i c hi => ?_)
    (hk.fail hat fun _ => by simp)
  · rw [Nat.zero_add]
    exact hk.item hat hi
  · rw [Nat.zero_add]
    exact Schema.leading_mem_children (List.mk_mem_zipIdx_iff_getElem?.mpr hi)

theorem inStep_additional (hk : KeepsValues F At)
    (h : PartsInStep S F At t check check' place scope scope') {extra : List (String × Value)}
    (hat : At value path) (hextra : ∀ m ∈ extra, At m.2 (.key m.1 :: path)) :
    InStep S F (additional (t.parts.map check) place extra path scope)
      (additional (t.parts.map check') place extra path scope') := by
  unfold additional
  refine .ite (.pure ()) ?_
  rw [Schema.additional_map_parts, Schema.additional_map_parts]
  rcases hmore : t.additional with _ | (_ | _) | c
  · exact hk.fail hat fun _ => by simp
  · exact hk.fail hat fun _ => by simp
  · exact .pure ()
  · exact inStep_forM fun m hm => h _ (Schema.additional_mem_children hmore) rfl m.2 _ (hextra m hm)

theorem inStep_object (hk : KeepsValues F At)
    (h : PartsInStep S F At t check check' place scope scope') {members : List (String × Value)}
    (hat : At (.object members) path) :
    InStep S F (object t (t.parts.map check) place members path scope)
      (object t (t.parts.map check') place members path scope') := by
  rw [object_eq, object_eq]
  refine (inStep_additional hk h hat fun m hm => hk.member hat (List.mem_of_mem_filter hm)).bind
    fun _ => ?_
  refine (InStep.ite (.pure ()) (hk.fail hat fun _ => by simp)).bind fun _ => ?_
  refine inStep_forM fun e he => ?_
  unfold declaredMember
  cases hget : Assoc.get? e.1 members with
  | none => exact .pure ()
  | some v =>
    exact h _ (Schema.property_mem_children he) rfl v _ (hk.member hat (Assoc.mem_of_get? hget))

theorem inStep_typed (hk : KeepsValues F At)
    (h : PartsInStep S F At t check check' place scope scope') (hat : At value path)
    (type : TypeName) :
    InStep S F (typed t (t.parts.map check) type place value path scope)
      (typed t (t.parts.map check') type place value path scope') := by
  unfold typed
  refine .ite (hk.fail hat fun _ => by simp) ?_
  split
  · exact inStep_object hk h hat
  · exact inStep_array hk h hat
  · unfold string
    split
    · exact .ite (.pure ()) (hk.fail hat fun _ => by simp)
    · exact .ite (.pure ()) (hk.fail hat fun _ => by simp)
  · exact .pure ()

theorem inStep_byTypes (hk : KeepsValues F At)
    (h : PartsInStep S F At t check check' place scope scope') (hat : At value path)
    (types : List TypeName) :
    InStep S F (byTypes t (t.parts.map check) types place value path scope)
      (byTypes t (t.parts.map check') types place value path scope') := by
  unfold byTypes
  split
  · exact inStep_typed hk h hat _
  · exact inStep_someType (hk.error hat fun _ => by simp)
      (fun type => inStep_typed hk h hat type) _ fun _ hnone => by cases hnone

theorem inStep_union (hk : KeepsValues F At)
    (h : PartsInStep S F At t check check' place scope scope') (hat : At value path)
    {branches : List Schema} {placed : Nat → PlaceStep}
    (hmem : ∀ e ∈ branches.zipIdx, (placed e.2, e.1) ∈ t.children)
    (hplaced : ∀ i, (placed i).named? = none) :
    InStep S F (union (branches.map check) placed place value path scope)
      (union (branches.map check') placed place value path scope') := by
  have hchecks : ∀ (check : Schema → Checker) (scope : Scope), (branches.map check).zipIdx.map
      (fun e => e.1 (placed e.2 :: place) value path scope) =
        branches.zipIdx.map fun e => check e.1 (placed e.2 :: place) value path scope := by
    intro check scope
    rw [List.zipIdx_map, List.map_map]
    rfl
  unfold union
  rw [hchecks, hchecks, List.length_map, List.length_map]
  refine (inStep_firstSuccess fun e he => h _ (hmem e he) (hplaced e.2) value path hat).bind
    fun found => ?_
  exact .ite (.pure ()) (hk.fail hat fun _ => by simp)

variable {follow follow' : String → Definition → Value → Path → Scope → CheckM Unit}

theorem inStep_byCriterion (hk : KeepsValues F At) (hat : At value path)
    (hreference : ∀ text, t.reference = some text → InStep S F
      (reference follow text value path scope) (reference follow' text value path scope'))
    (h : PartsInStep S F At t check check' place scope scope') :
    InStep S F (byCriterion follow check t t.criterion place value path scope)
      (byCriterion follow' check' t t.criterion place value path scope') := by
  cases hc : t.criterion with
  | reference text => exact hreference text (Schema.reference_of_criterion hc)
  | union placed branches =>
    exact inStep_union hk h hat (fun e he => Schema.mem_children_of_criterion hc he)
      (Schema.named?_of_criterion hc)
  | constant expected => exact .ite (.pure ()) (hk.fail hat fun _ => by simp)
  | enumeration members => exact .ite (.pure ()) (hk.fail hat fun _ => by simp)
  | types types => exact inStep_byTypes hk h hat types
  | anything => exact .pure ()

/-- Two checks against a fragment are in step if they are at references. -/
theorem inStep_fold (hk : KeepsStep S F Good Fine At)
    (hreference : ∀ text value path scope, Fine scope → At value path → InStep S F
      (reference follow text value path scope) (reference follow' text value path scope))
    (hgood : Good place t) (hscope : Fine scope) (hat : At value path) :
    InStep S F (t.fold (step follow) place value path scope)
      (t.fold (step follow') place value path scope) := by
  induction t using Schema.induction generalizing place value path scope with
  | h t ih =>
    rw [Schema.fold_eq, Schema.fold_eq, step_eq, step_eq]
    have hinner := hk.fine hgood hscope
    refine enters.inStep (fun _ _ hst => hk.enter hst hgood hscope) ?_
    exact inStep_byCriterion hk.toKeepsValues hat
      (fun text _ => hreference text value path _ hinner hat)
      fun e he _ value' path' hat' => ih e he (hk.child hgood e he) hinner hat'

end

end Checking

end SchemaGrammar
