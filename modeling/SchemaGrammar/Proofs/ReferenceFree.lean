import SchemaGrammar.Proofs.RunsInStep

/-!
# Schemas without references

Only a reference looks a name up. So what is around a document without references makes no
difference to it: neither its shapes nor what is found out about a value depend on the external
definitions, and with none of them it is lexically scoped, whatever the external ones are.

Two runs over one fragment that are given different scopes, and may follow references differently,
are in step. As no reference is met, nothing is asked of the scopes and of what has been recorded of
them.

## Main definitions

* `Schema.isReferenceFree`: no fragment is a reference.

## Main results

* `lexicallyScoped_of_isReferenceFree`: every reference names something.
* `lower_of_isReferenceFree`, `validateUnder_of_isReferenceFree`: external definitions make no
  difference.
-/

namespace SchemaGrammar

open Json (Value)

namespace Schema

/-- Whether no fragment is a reference, those in definitions included. -/
def isReferenceFree : Schema → Bool :=
  fold fun s p => s.reference.isNone && p.all id

variable {s : Schema}

theorem isReferenceFree_iff :
    s.isReferenceFree = true ↔
      s.reference = none ∧ ∀ e ∈ s.children, e.2.isReferenceFree = true := by
  rw [isReferenceFree, fold_eq, ← isReferenceFree, all_parts_map]
  simp

theorem isScoped_of_isReferenceFree (h : s.isReferenceFree = true) (names : List String) :
    s.isScoped names = true := by
  induction s using Schema.induction generalizing names with
  | h s ih =>
    obtain ⟨hnone, hchildren⟩ := isReferenceFree_iff.mp h
    refine isScoped_iff.mpr ⟨fun text htext => ?_, fun e he => ih e he (hchildren e he) _⟩
    cases hnone.symm.trans htext

end Schema

section

variable {s : Schema}

theorem lexicallyScoped_of_isReferenceFree (h : s.isReferenceFree = true) : LexicallyScoped s [] :=
  ⟨Schema.isScoped_of_isReferenceFree h _, fun _ he => absurd he List.not_mem_nil⟩

theorem distinctNames_nil (h : s.isDistinct = true) : DistinctNames s [] :=
  ⟨List.nodup_nil, h, fun _ he => absurd he List.not_mem_nil⟩

end

/-! ## Lowering -/

namespace Lowering

/-- The states of two runs, whatever has been recorded of scopes. -/
def SameShapes (st st' : Lowering) : Prop := st'.shapes = st.shapes

theorem keepsShapes_sameShapes : KeepsShapes SameShapes (fun _ => True) id where
  descend _ := rfl
  error _ _ := trivial
  size h := by rw [h]
  push h _ := by rw [SameShapes, pushed, pushed, h, Shape.relaid_id]

section

variable {t : Schema} {place : Place} {layout : Layout} {scope scope' : Scope}
  {follow follow' : String → Definition → Layout → Scope → LowerM ShapeId}

theorem inStep_enter_sameShapes {k k' : Scope → LowerM ShapeId}
    (h : ∀ inner inner', InStep SameShapes (fun _ => True) (k inner) (k' inner')) :
    InStep SameShapes (fun _ => True) (enter t place scope >>= k)
      (enter t place scope' >>= k') := by
  intro st st' hst
  rw [run_enter_bind, run_enter_bind]
  exact h _ _ _ _ hst

/-- Two runs over a fragment without references, in different scopes. -/
theorem inStep_fold_of_isReferenceFree (ht : t.isReferenceFree = true) :
    InStep SameShapes (fun _ => True) (t.fold (step follow) place layout scope)
      (t.fold (step follow') place layout scope') := by
  induction t using Schema.induction generalizing place layout scope scope' with
  | h t ih =>
    obtain ⟨hnone, hchildren⟩ := Schema.isReferenceFree_iff.mp ht
    rw [Schema.fold_eq, Schema.fold_eq, step_eq, step_eq]
    refine inStep_enter_sameShapes fun inner inner' => .ite (inStep_throw trivial) ?_
    refine inStep_byCriterion keepsShapes_sameShapes (fun text htext => ?_)
      fun e he _ layout' => ih e he (hchildren e he)
    cases hnone.symm.trans htext

end

end Lowering

/-- The shapes of a document without references do not depend on external definitions. -/
theorem lower_of_isReferenceFree {s : Schema} (hs : s.isReferenceFree = true)
    (external : Assoc Schema) (layout : Layout) : lower s external layout = lower s [] layout := by
  obtain ⟨hshapes, hsame, -⟩ := Lowering.inStep_fold_of_isReferenceFree hs
    { registry := ScopeRegistry.declare {} (Scope.ofExternal []) }
    { registry := ScopeRegistry.declare {} (Scope.ofExternal external) } rfl
  exact lower_congr hsame hshapes

/-! ## Checking -/

namespace Checking

section

variable {t : Schema} {demand : Schema.Demand} {place : Place} {value : Value} {path : Path}
  {scope scope' : Scope} {follow follow' : String → Definition → Value → Path → Scope → CheckM Unit}

/-- Two checks against a fragment without references, in different scopes. -/
theorem inStep_fold_of_isReferenceFree (ht : t.isReferenceFree = true) :
    InStep (fun _ _ => True) (fun _ => True)
      (t.fold (demanding demand (step follow)) place value path scope)
      (t.fold (demanding demand (step follow')) place value path scope') := by
  induction t using Schema.induction generalizing place value path scope scope' with
  | h t ih =>
    obtain ⟨hnone, hchildren⟩ := Schema.isReferenceFree_iff.mp ht
    rw [Schema.fold_eq, Schema.fold_eq]
    refine InStep.bind ?_ fun _ => .ite (.pure ()) (inStep_throw trivial)
    rw [step_eq, step_eq]
    intro st st' _
    rw [run_enter_bind, run_enter_bind]
    refine inStep_byCriterion keepsValues_any trivial (fun text htext => ?_)
      (fun e he _ value' path' _ => ih e he (hchildren e he)) _ _ trivial
    cases hnone.symm.trans htext

end

end Checking

/-- What is found out about a value does not depend on external definitions if there are no
references. -/
theorem validateUnder_of_isReferenceFree {s : Schema} (hs : s.isReferenceFree = true)
    (demand : Schema.Demand) (external : Assoc Schema) (value : Value) :
    validateUnder demand s external value = validateUnder demand s [] value :=
  (Checking.inStep_fold_of_isReferenceFree hs
    { registry := ScopeRegistry.declare {} (Scope.ofExternal []) }
    { registry := ScopeRegistry.declare {} (Scope.ofExternal external) } trivial).same

end SchemaGrammar
