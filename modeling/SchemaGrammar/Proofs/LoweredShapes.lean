import SchemaGrammar.Compiler
import SchemaGrammar.Proofs.Fragments
import SchemaGrammar.Proofs.TerminalBody

/-!
# Well-formed shapes, and runs of lowering

A table of shapes is well-formed if bounds are in order, leaves are whole values and choices are not
empty; it is in one style if its layouts differ in depth only. Both are kept by the two ways in
which a table grows.

## Main definitions

* `Shape.WellFormed`, `Shapes.WellFormed`: what is asked of shapes.
* `Shape.Styled`, `Shapes.InStyle`: the layouts of a shape, and of a table, are of one style.

## Main results

* `Lowering.array_eq`: the steps that lower a list.
* `lower_inv`: a lowering that succeeds is a run from the empty table.
-/

namespace SchemaGrammar

/-- Whether a leaf is a whole value. -/
def Terminal.isValue : Terminal → Bool
  | .verbatim _ | .whitespace _ | .stringChar => false
  | _ => true

/-- A shape whose leaves are values, whose bounds are in order and whose choices are not empty. -/
def Shape.WellFormed : Shape → Prop
  | .terminal t => t.WellFormed ∧ t.isValue = true
  | .array shape => shape.leading.length ≤ shape.least ∧ ∀ m ∈ shape.most, shape.least ≤ m
  | .enumeration members | .union members => members ≠ []
  | .object _ | .reference _ _ | .anyJson _ => True

def Shapes.WellFormed (shapes : Shapes) : Prop :=
  ∀ id shape, shapes.get? id = some shape → shape.WellFormed

/-- How lines are laid out, at whatever depth. -/
def Layout.style (l : Layout) : Layout := { l with depth := 0 }

@[simp] theorem Layout.style_descend (l : Layout) : l.descend.style = l.style := rfl

/-- The layouts of a shape are of one style. -/
def Shape.Styled (style : Layout) : Shape → Prop
  | .object shape => shape.layout.style = style
  | .array shape => shape.layout.style = style
  | .anyJson layout => layout.style = style
  | .terminal _ | .enumeration _ | .union _ | .reference _ _ => True

/-- A table of well-formed shapes in one style. -/
def Shapes.InStyle (style : Layout) (shapes : Shapes) : Prop :=
  ∀ id shape, shapes.get? id = some shape → shape.WellFormed ∧ shape.Styled style

theorem Shapes.InStyle.push {style : Layout} {shapes : Shapes} (h : shapes.InStyle style)
    {shape : Shape} (hwf : shape.WellFormed) (hs : shape.Styled style) :
    (shapes.push shape).2.InStyle style := by
  intro id found hget
  rw [Shapes.push, Shapes.get?, Array.getElem?_push] at hget
  split_ifs at hget
  · cases hget
    exact ⟨hwf, hs⟩
  · exact h _ _ hget

theorem Shapes.InStyle.setTarget {style : Layout} {shapes : Shapes} (h : shapes.InStyle style)
    (id target : ShapeId) : (shapes.setTarget id target).InStyle style := by
  unfold Shapes.setTarget
  split
  · intro j found hget
    rw [Shapes.get?, Array.getElem?_setIfInBounds] at hget
    split_ifs at hget
    · cases hget
      exact ⟨trivial, trivial⟩
    · exact h _ _ hget
  · exact h

namespace Lowering

/-! ## Leaves -/

theorem isValue_ofLiteral {value : Json.Value} {t : Terminal}
    (h : Terminal.ofLiteral value = .ok t) : t.WellFormed ∧ t.isValue = true := by
  cases value <;> cases h <;> exact ⟨trivial, rfl⟩

theorem wellFormed_stringTerminal {s : Schema} {t : Terminal} (h : stringTerminal s = .ok t) :
    t.WellFormed ∧ t.isValue = true := by
  unfold stringTerminal at h
  split at h
  · cases h
    exact ⟨trivial, rfl⟩
  · cases h
    exact ⟨by simp [Terminal.WellFormed], rfl⟩
  · next least most hleast _ =>
    split_ifs at h with hlt
    cases h
    refine ⟨?_, rfl⟩
    rintro m ⟨⟩
    exact Nat.le_of_not_lt hlt

/-! ## Lists -/

/-- Whether the bounds of a list are in order. -/
def checkItemBounds (s : Schema) : LowerM Unit :=
  match s.minItems, s.maxItems with
  | some least, some most => if most < least then unsupported (.itemBounds least most) else pure ()
  | _, _ => pure ()

/-- The shape of further items. -/
def furtherItems (items : Option Lowerer) (place : Place) (inner : Layout) (scope : Scope) :
    LowerM ShapeId :=
  match items with
  | some lower => lower (.items :: place) inner scope
  | none => push (.anyJson inner)

/-- The steps that lower a list. -/
theorem array_eq (s : Schema) (parts : Schema.Parts Lowerer) (place : Place) (layout : Layout)
    (scope : Scope) :
    array s parts place layout scope = (do
      checkItemBounds s
      let leading ← parts.leading.zipIdx.mapM fun (lower, i) =>
        lower (.leading i :: place) layout.descend scope
      let items ← furtherItems parts.items place layout.descend scope
      push (.array
        { leading := leading
          items := items
          least := max (s.minItems.getD 0) leading.length
          most := s.maxItems.map (max · leading.length)
          layout := layout })) := by
  unfold array checkItemBounds furtherItems
  cases s.minItems with
  | none => cases parts.items <;> rfl
  | some least =>
    cases s.maxItems with
    | none => cases parts.items <;> rfl
    | some most =>
      dsimp only
      split_ifs
      · cases parts.items <;> rfl
      · cases parts.items <;> rfl

theorem run_checkItemBounds {s : Schema} {u : Unit} {st st' : Lowering}
    (h : (checkItemBounds s).run st = (.ok u, st')) :
    st' = st ∧ ∀ least ∈ s.minItems, ∀ most ∈ s.maxItems, least ≤ most := by
  unfold checkItemBounds at h
  split at h
  · next least most hmin hmax =>
    split_ifs at h with hlt
    · cases h
    · cases h
      refine ⟨rfl, fun l hl m hm => ?_⟩
      rw [hmin] at hl
      rw [hmax] at hm
      cases hl
      cases hm
      exact Nat.le_of_not_lt hlt
  · next hnone =>
    cases h
    exact ⟨rfl, fun least hmin most hmax => (hnone least most hmin hmax).elim⟩

end Lowering

/-- A lowering that succeeds is a run from the empty table. -/
theorem lower_inv {s : Schema} {external : Assoc Schema} {layout : Layout} {lowered : Lowered}
    (h : lower s external layout = .ok lowered) :
    ∃ root st, (Lowering.document s external layout).run {} = (.ok root, st) ∧
      lowered = ⟨st.shapes, root⟩ := by
  unfold lower at h
  rcases hrun : (Lowering.document s external layout).run {} with ⟨_ | root, st⟩
  · rw [hrun] at h
    cases h
  · rw [hrun] at h
    exact ⟨root, st, rfl, (Except.ok.inj h).symm⟩

/-- Runs that end alike and with one table give the same. -/
theorem lower_congr {s s' : Schema} {external external' : Assoc Schema} {layout : Layout}
    (hsame : ((Lowering.document s external layout).run {}).1 =
      ((Lowering.document s' external' layout).run {}).1)
    (hshapes : ((Lowering.document s external layout).run {}).2.shapes =
      ((Lowering.document s' external' layout).run {}).2.shapes) :
    lower s external layout = lower s' external' layout := by
  unfold lower
  rcases hrun : (Lowering.document s external layout).run {} with ⟨result, st⟩
  rcases hrun' : (Lowering.document s' external' layout).run {} with ⟨result', st'⟩
  rw [hrun, hrun'] at hsame hshapes
  dsimp only at hsame hshapes ⊢
  rw [hsame, hshapes]

/-- A lowering that fails is a run from the empty table that does. -/
theorem lower_error_inv {s : Schema} {external : Assoc Schema} {layout : Layout} {e : CompileError}
    (h : lower s external layout = .error e) :
    ∃ st, (Lowering.document s external layout).run {} = (.error e, st) := by
  unfold lower at h
  rcases hrun : (Lowering.document s external layout).run {} with ⟨_ | root, st⟩
  · rw [hrun] at h
    cases h
    exact ⟨st, rfl⟩
  · rw [hrun] at h
    cases h

end SchemaGrammar
