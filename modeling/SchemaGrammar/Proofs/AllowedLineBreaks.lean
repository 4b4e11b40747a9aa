import SchemaGrammar.Proofs.ClosedGrammar
import SchemaGrammar.Proofs.RunsInStep
import SchemaGrammar.Proofs.TrailingLineBreaks

/-!
# Line breaks inside the document

Whether line breaks are allowed inside the document is part of the layout, and lowering only hands
the layout on. So the two tables of a schema differ in the layouts of their shapes and in nothing
else, although the rules that are written for them do: they have other blanks, share other values on
a single line and are named in another way. What the rules derive is the language of the table, so
the two grammars are compared there.

Blanks with line breaks allowed are those without, and those that begin with a line break. Hence the
language only grows. Leaving out the words that have a line break is a homomorphism of languages; it
takes the equations of the one table to those of the other, so nothing is added on a single line.

## Main definitions

* `Shapes.relaid`: a table in another layout.
* `oneLine`: the words of a language that have no line break.

## Main results

* `lower_relaid`: lowering in another layout gives the same table in that layout.
* `accepts_allowNewLines`: allowing line breaks only adds texts that have one.
-/

namespace SchemaGrammar

open Grammar

/-! ## Tables in another layout -/

namespace Shapes

/-- A table with the layouts of its shapes changed. -/
def relaid (f : Layout → Layout) (shapes : Shapes) : Shapes :=
  ⟨shapes.entries.map (Shape.relaid f)⟩

variable {f : Layout → Layout} {shapes : Shapes} {id target : ShapeId}

@[simp] theorem get?_relaid :
    (shapes.relaid f).get? id = (shapes.get? id).map (Shape.relaid f) := by
  simp [relaid, get?]

@[simp] theorem size_relaid : (shapes.relaid f).size = shapes.size := by
  simp [relaid, size]

theorem push_relaid (shape : Shape) :
    ((shapes.relaid f).push (shape.relaid f)).2 = (shapes.push shape).2.relaid f := by
  simp [push, relaid]

theorem setTarget_relaid :
    (shapes.relaid f).setTarget id target = (shapes.setTarget id target).relaid f := by
  unfold setTarget
  rw [get?_relaid]
  rcases hget : shapes.get? id with _ | shape
  · rfl
  · cases shape with
    | reference name found =>
      cases found with
      | none => simp [Shape.relaid, relaid]
      | some found => rfl
    | _ => rfl

theorem starts_relaid : Lowering.starts (shapes.relaid f) id = Lowering.starts shapes id := by
  unfold Lowering.starts
  rw [get?_relaid]
  rcases hget : shapes.get? id with _ | shape
  · rfl
  · cases shape with
    | reference name found => cases found <;> rfl
    | _ => rfl

theorem reaches_relaid (goal : ShapeId) (steps : Nat) (seen : Array Bool) (pending : List ShapeId) :
    Lowering.reaches (shapes.relaid f) goal steps seen pending =
      Lowering.reaches shapes goal steps seen pending := by
  fun_induction Lowering.reaches shapes goal steps seen pending with
  | case1 => rw [Lowering.reaches]
  | case2 => rw [Lowering.reaches]
  | case3 => simp [Lowering.reaches]
  | case4 steps seen next pending hne hseen ih =>
    rw [Lowering.reaches, if_neg hne, if_pos hseen, ih]
  | case5 steps seen next pending hne hseen ih =>
    rw [Lowering.reaches, if_neg hne, if_neg hseen, starts_relaid, ih]

theorem refersBack_relaid :
    Lowering.refersBack (shapes.relaid f) id target = Lowering.refersBack shapes id target := by
  simp only [Lowering.refersBack, Lowering.searchSteps, reaches_relaid, starts_relaid, size_relaid]

end Shapes

/-! ## Lowering in another layout -/

namespace Lowering

/-- The state with the layouts of its shapes changed. -/
def relaid (f : Layout → Layout) (st : Lowering) : Lowering :=
  { st with shapes := st.shapes.relaid f }

/-- Two states that differ in the layouts of their shapes. -/
def IsRelaid (f : Layout → Layout) (st st' : Lowering) : Prop := st' = st.relaid f

section

variable {f : Layout → Layout} {layout : Layout} {scope : Scope}

theorem keepsStep_relaid (hf : ∀ layout, f layout.descend = (f layout).descend) :
    KeepsStep (IsRelaid f) (fun _ => True) f (fun _ _ => True)
      (fun _ => True) where
  descend := hf
  error _ _ := trivial
  size h := by
    cases h
    exact Shapes.size_relaid
  push {st st' shape} h _ := by
    cases h
    simp only [IsRelaid, pushed, relaid, Shapes.push_relaid]
  child _ _ _ := trivial
  fine _ _ := trivial
  enter h _ _ := by
    cases h
    rfl

theorem endInStep_closeReference_relaid (st : Lowering) (id : ShapeId) (name : String)
    (target : ShapeId) :
    EndInStep (IsRelaid f) (fun _ => True)
      ((closeReference id name target).run st)
      ((closeReference id name target).run (st.relaid f)) := by
  rw [run_closeReference, run_closeReference]
  refine ⟨?_, ?_, fun _ _ => trivial⟩
  · simp only [IsRelaid, relaid, Shapes.setTarget_relaid]
  · simp only [relaid, Shapes.setTarget_relaid, Shapes.refersBack_relaid]

theorem define_relaid (st : Lowering) (key : DefinitionKey) (name : String) :
    (st.relaid f).define key name = (st.define key name).relaid f := by
  simp only [define, relaid, Shapes.size_relaid, ← Shapes.push_relaid, Shape.relaid]

theorem inStep_reference_relaid {follow : String → Definition → Layout → Scope → LowerM ShapeId}
    (hfollow : ∀ name definition scope, InStep (IsRelaid f) (fun _ => True)
      (follow name definition layout scope) (follow name definition (f layout) scope))
    (text : String) :
    InStep (IsRelaid f) (fun _ => True) (reference follow text layout scope)
      (reference follow text (f layout) scope) := by
  rcases scope.found_or_unknown text with ⟨name, definition, hname, hget⟩ | hnone
  · rintro st _ rfl
    cases hlookup : st.references.lookup (name, definition.place) with
    | some id =>
      have hlookup' : (st.relaid f).references.lookup (name, definition.place) = some id := hlookup
      rw [reference_known hname hget hlookup, reference_known hname hget hlookup']
      exact .ok (show IsRelaid f st _ from rfl) id
    | none =>
      have hlookup' : (st.relaid f).references.lookup (name, definition.place) = none := hlookup
      have hsize : (st.relaid f).shapes.size = st.shapes.size := Shapes.size_relaid
      rw [reference_new hname hget hlookup, reference_new hname hget hlookup', define_relaid, hsize]
      refine (hfollow name definition _ _ _ rfl).bind (fun _ _ h => h) ?_
      rintro target st₁ _ rfl
      exact endInStep_closeReference_relaid st₁ st.shapes.size name target
  · rw [reference_unknown hnone, reference_unknown hnone]
    exact inStep_throw trivial

theorem inStep_follow_relaid (hf : ∀ layout, f layout.descend = (f layout).descend) (jumps : Nat)
    (name : String) (definition : Definition) (layout : Layout) (scope : Scope) :
    InStep (IsRelaid f) (fun _ => True)
      (follow jumps name definition layout scope)
      (follow jumps name definition (f layout) scope) := by
  induction jumps generalizing name definition layout scope with
  | zero => exact inStep_throw trivial
  | succ jumps ih =>
    exact inStep_fold (keepsStep_relaid hf)
      (fun text layout scope _ =>
        inStep_reference_relaid (fun name definition scope => ih name definition layout scope) text)
      trivial trivial

end

end Lowering

/-- The lowered document in another layout. -/
def Lowered.relaid (f : Layout → Layout) (lowered : Lowered) : Lowered :=
  ⟨lowered.shapes.relaid f, lowered.root⟩

/-- **Lowering hands the layout on**: in another layout it gives the same table in that layout, or
the same error. -/
theorem lower_relaid {f : Layout → Layout} (hf : ∀ layout, f layout.descend = (f layout).descend)
    (s : Schema) (external : Assoc Schema) (layout : Layout) :
    lower s external (f layout) = (lower s external layout).map (Lowered.relaid f) := by
  have hstart : Lowering.IsRelaid f
      { registry := ScopeRegistry.declare {} (Scope.ofExternal external) }
      { registry := ScopeRegistry.declare {} (Scope.ofExternal external) } := by
    simp [Lowering.IsRelaid, Lowering.relaid, Shapes.relaid]
  have hrun : EndInStep (Lowering.IsRelaid f) (fun _ => True)
      ((Lowering.document s external layout).run {})
      ((Lowering.document s external (f layout)).run {}) :=
    Lowering.inStep_fold (Lowering.keepsStep_relaid hf)
      (fun text layout scope _ => Lowering.inStep_reference_relaid
        (fun name definition scope =>
          Lowering.inStep_follow_relaid hf _ name definition layout scope)
        text)
      trivial trivial _ _ hstart
  unfold lower
  rcases h : (Lowering.document s external layout).run {} with ⟨result, st⟩
  rcases h' : (Lowering.document s external (f layout)).run {} with ⟨result', st'⟩
  obtain ⟨hstates, hsame, -⟩ := hrun
  rw [h, h'] at hstates hsame
  cases hstates
  cases hsame
  cases result <;> rfl

/-! ## Words on one line -/

/-- The words of a language that have no line break. -/
def unbroken (l : Language Char) : Language Char := {w | w ∈ l ∧ '\n' ∉ w}

theorem mem_unbroken {l : Language Char} {w : List Char} : w ∈ unbroken l ↔ w ∈ l ∧ '\n' ∉ w :=
  Iff.rfl

theorem unbroken_mul (l m : Language Char) : unbroken (l * m) = unbroken l * unbroken m := by
  ext w
  simp only [mem_unbroken, Language.mem_mul]
  constructor
  · rintro ⟨⟨u, hu, v, hv, rfl⟩, hline⟩
    rw [List.mem_append, not_or] at hline
    exact ⟨u, ⟨hu, hline.1⟩, v, ⟨hv, hline.2⟩, rfl⟩
  · rintro ⟨u, ⟨hu, hline⟩, v, ⟨hv, hline'⟩, rfl⟩
    exact ⟨⟨u, hu, v, hv, rfl⟩, List.not_mem_append hline hline'⟩

/-- Leaving out the words that have a line break, as a homomorphism: a word has none exactly if its
parts have none. -/
def oneLine : Language Char →+* Language Char where
  toFun := unbroken
  map_zero' := by
    ext w
    simp [mem_unbroken, Language.notMem_zero]
  map_one' := by
    ext w
    simp only [mem_unbroken, Language.mem_one]
    refine and_iff_left_of_imp ?_
    rintro rfl
    exact List.not_mem_nil
  map_add' l m := by
    ext w
    simp only [mem_unbroken, Language.mem_add]
    exact or_and_right
  map_mul' := unbroken_mul

theorem mem_oneLine {l : Language Char} {w : List Char} : w ∈ oneLine l ↔ w ∈ l ∧ '\n' ∉ w :=
  Iff.rfl

theorem oneLine_le (l : Language Char) : oneLine l ≤ l := fun _ hw => hw.1

theorem oneLine_word {text : String} (h : '\n' ∉ text.toList) :
    oneLine (Lexeme.word text) = Lexeme.word text := by
  ext w
  rw [mem_oneLine, Lexeme.mem_word]
  refine and_iff_left_of_imp ?_
  rintro rfl
  exact h

section

variable (inner outer : Language Char)

theorem oneLine_joined (ls : List (Language Char)) :
    oneLine (joined inner ls) = joined (oneLine inner) (ls.map oneLine) := by
  cases ls with
  | nil => exact map_one oneLine
  | cons l ls =>
    rw [List.map_cons, joined_cons, joined_cons, map_mul, map_list_prod, List.map_map, List.map_map]
    refine congrArg (oneLine l * List.prod ·) (List.map_congr_left fun m _ => ?_)
    exact map_mul oneLine inner m

theorem oneLine_comma : oneLine (comma inner) = comma (oneLine inner) := by
  rw [comma, comma, map_mul, oneLine_word (by decide)]

theorem oneLine_bracketForm {opening closing : String} (ho : '\n' ∉ opening.toList)
    (hc : '\n' ∉ closing.toList) {possible : Prop} [Decidable possible] (inside : Language Char) :
    oneLine (bracketForm opening closing inner outer possible inside) =
      bracketForm opening closing (oneLine inner) (oneLine outer) possible (oneLine inside) := by
  unfold bracketForm
  split_ifs
  · simp only [map_mul, oneLine_word ho, oneLine_word hc]
  · simp only [map_mul, oneLine_word ho, oneLine_word hc]

theorem oneLine_listForm (leading : List (Language Char)) (item : Language Char) (least : Nat)
    (most : Option Nat) :
    oneLine (listForm inner outer leading item least most) =
      listForm (oneLine inner) (oneLine outer) (leading.map oneLine) (oneLine item) least most := by
  have helements : oneLine (elements inner leading item least most) =
      elements (oneLine inner) (leading.map oneLine) (oneLine item) least most := by
    ext w
    simp only [mem_oneLine, mem_elements, List.length_map, ← oneLine_comma,
      ← List.map_replicate, ← List.map_append, ← oneLine_joined]
    constructor
    · rintro ⟨⟨n, hn, hw⟩, hline⟩
      exact ⟨n, hn, hw, hline⟩
    · rintro ⟨n, hn, hw, hline⟩
      exact ⟨⟨n, hn, hw⟩, hline⟩
  rw [listForm, listForm, oneLine_bracketForm inner outer (by decide) (by decide), helements,
    List.length_map]

theorem oneLine_objectForm (declared : List (Language Char × Bool))
    (additional : Option (Language Char)) :
    oneLine (objectForm inner outer declared additional) =
      objectForm (oneLine inner) (oneLine outer) (declared.map fun m => (oneLine m.1, m.2))
        (additional.map oneLine) := by
  have hget : (additional.map oneLine).getD 0 = oneLine (additional.getD 0) := by
    cases additional with
    | none => exact (map_zero oneLine).symm
    | some l => rfl
  have hparts : ∀ (chosen : List (Language Char × Bool)) (n : Nat) (l : Language Char),
      (chosen.map fun m => (oneLine m.1, m.2)).map Prod.fst ++ List.replicate n (oneLine l) =
        (chosen.map Prod.fst ++ List.replicate n l).map oneLine := by
    intro chosen n l
    rw [List.map_append, List.map_replicate, List.map_map, List.map_map]
    rfl
  have hmembers : oneLine (memberList inner declared additional) =
      memberList (oneLine inner) (declared.map fun m => (oneLine m.1, m.2))
        (additional.map oneLine) := by
    ext w
    simp only [mem_oneLine, mem_memberList, chosen_map_iff, Option.map_eq_none_iff, hget,
      ← oneLine_comma]
    constructor
    · rintro ⟨⟨chosen, n, hchosen, hn, hw⟩, hline⟩
      refine ⟨_, n, ⟨chosen, hchosen, rfl⟩, hn, ?_⟩
      rw [hparts, ← oneLine_joined]
      exact ⟨hw, hline⟩
    · rintro ⟨_, n, ⟨chosen, hchosen, rfl⟩, hn, hw⟩
      rw [hparts, ← oneLine_joined] at hw
      exact ⟨⟨chosen, n, hchosen, hn, hw.1⟩, hw.2⟩
  rw [objectForm, objectForm, oneLine_bracketForm inner outer (by decide) (by decide), hmembers,
    List.length_map, Option.isNone_map]

theorem oneLine_entryForm_le (key value : Language Char) :
    oneLine (entryForm key value) ≤ entryForm key (oneLine value) := by
  rw [entryForm, entryForm, map_mul, map_mul, map_mul]
  gcongr <;> exact oneLine_le _

end

/-! ## Languages with and without line breaks -/

/-- The layout with line breaks allowed. -/
def Layout.broken (l : Layout) : Layout := { l with newLines := true }

theorem Layout.blanks_le_broken (l : Layout) : l.blanks ≤ l.broken.blanks := fun _ hw =>
  mem_blanks.mpr ((mem_blanks.mp hw).imp_right fun h => ⟨rfl, h.2⟩)

theorem Layout.oneLine_blanks_broken_le (l : Layout) : oneLine l.broken.blanks ≤ l.blanks := by
  rintro w ⟨hw, hline⟩
  rcases mem_blanks.mp hw with hw | ⟨-, indent, -, rfl⟩
  · exact mem_blanks.mpr (.inl hw)
  · exact absurd List.mem_cons_self hline

section

variable {nested nested' : Language Char}

theorem jsonForm_le_broken (layout : Layout) :
    jsonForm layout nested ≤ jsonForm layout.broken nested :=
  add_le_add
    (add_le_add le_rfl (listForm_mono layout.descend.blanks_le_broken layout.blanks_le_broken .nil
      le_rfl))
    (objectForm_mono layout.descend.blanks_le_broken layout.blanks_le_broken .nil (.some le_rfl))

theorem oneLine_jsonForm_le {layout layout' : Layout}
    (hinner : oneLine layout'.descend.blanks ≤ layout.descend.blanks)
    (houter : oneLine layout'.blanks ≤ layout.blanks) (h : oneLine nested' ≤ nested) :
    oneLine (jsonForm layout' nested') ≤ jsonForm layout nested := by
  have hlist : oneLine (freeList layout' nested') ≤ freeList layout nested := by
    rw [freeList, oneLine_listForm]
    exact listForm_mono hinner houter .nil h
  have hobject : oneLine (freeObject layout' nested') ≤ freeObject layout nested := by
    rw [freeObject, oneLine_objectForm]
    exact objectForm_mono hinner houter .nil
      (.some ((oneLine_entryForm_le _ _).trans (entryForm_mono le_rfl h)))
  simp only [jsonForm, map_add]
  gcongr <;> exact oneLine_le _

end

namespace Shapes

theorem shapeStep_le_broken (env : Node → Language Char) (shape : Shape) :
    shapeStep env shape ≤ shapeStep env (shape.relaid Layout.broken) := by
  cases shape with
  | array shape =>
    exact listForm_mono shape.layout.descend.blanks_le_broken shape.layout.blanks_le_broken
      (forall₂_map_le (fun _ => le_rfl) shape.leading) le_rfl
  | object shape =>
    refine objectForm_mono shape.layout.descend.blanks_le_broken shape.layout.blanks_le_broken ?_ ?_
    · exact List.forall₂_same.mpr fun _ _ => ⟨le_rfl, rfl⟩
    · cases shape.additional with
      | none => exact .none
      | some id => exact .some le_rfl
  | anyJson layout => exact jsonForm_le_broken layout
  | _ => exact le_rfl

theorem oneLine_shapeStep_le {env env' : Node → Language Char}
    (h : ∀ node, oneLine (env' node) ≤ env node) (shape : Shape) :
    oneLine (shapeStep env' (shape.relaid Layout.broken)) ≤ shapeStep env shape := by
  cases shape with
  | terminal t => exact oneLine_le _
  | enumeration members => exact fun w ⟨⟨id, hid, hw⟩, hline⟩ => ⟨id, hid, h _ ⟨hw, hline⟩⟩
  | union members => exact fun w ⟨⟨id, hid, hw⟩, hline⟩ => ⟨id, hid, h _ ⟨hw, hline⟩⟩
  | reference name target =>
    cases target with
    | none => exact oneLine_le _
    | some target => exact h _
  | array shape =>
    rw [Shape.relaid, shapeStep, oneLine_listForm, List.map_map]
    exact listForm_mono shape.layout.descend.oneLine_blanks_broken_le
      shape.layout.oneLine_blanks_broken_le (forall₂_map_le (fun _ => h _) shape.leading) (h _)
  | object shape =>
    rw [Shape.relaid, shapeStep, oneLine_objectForm, List.map_map, Option.map_map]
    refine objectForm_mono shape.layout.descend.oneLine_blanks_broken_le
      shape.layout.oneLine_blanks_broken_le ?_ ?_
    · refine List.forall₂_map_left_iff.mpr (List.forall₂_map_right_iff.mpr ?_)
      exact List.forall₂_same.mpr fun p _ =>
        ⟨(oneLine_entryForm_le _ _).trans (entryForm_mono le_rfl (h _)), rfl⟩
    · cases shape.additional with
      | none => exact .none
      | some id => exact .some ((oneLine_entryForm_le _ _).trans (entryForm_mono le_rfl (h _)))
  | anyJson layout =>
    exact oneLine_jsonForm_le layout.descend.oneLine_blanks_broken_le
      layout.oneLine_blanks_broken_le (h .line)

variable (shapes : Shapes)

/-- Every word of a shape is one with line breaks allowed. -/
theorem language_le_broken : shapes.language ≤ (shapes.relaid Layout.broken).language := by
  refine language_le fun node => ?_
  rw [language_eq (shapes.relaid Layout.broken)]
  cases node with
  | line => exact le_rfl
  | shape id =>
    cases hget : shapes.get? id with
    | none =>
      rw [step_of_none hget]
      exact bot_le
    | some shape =>
      have hget' : (shapes.relaid Layout.broken).get? id = some (shape.relaid Layout.broken) := by
        rw [get?_relaid, hget, Option.map_some]
      rw [step_of_get? hget, step_of_get? hget']
      exact shapeStep_le_broken _ shape

/-- The words that are added by allowing line breaks have one. -/
theorem oneLine_language_broken_le (node : Node) :
    oneLine ((shapes.relaid Layout.broken).language node) ≤ shapes.language node := by
  -- the largest languages whose words without line breaks are those of `shapes`
  let env : Node → Language Char := fun node => {w | '\n' ∉ w → w ∈ shapes.language node}
  have henv : ∀ node, oneLine (env node) ≤ shapes.language node := fun node w hw => hw.1 hw.2
  have hle : (shapes.relaid Layout.broken).language ≤ env := by
    refine language_le fun node w hw hline => ?_
    rw [language_eq]
    cases node with
    | line => exact oneLine_jsonForm_le (oneLine_le _) (oneLine_le _) (henv .line) ⟨hw, hline⟩
    | shape id =>
      cases hget : shapes.get? id with
      | none =>
        have hget' : (shapes.relaid Layout.broken).get? id = none := by
          rw [get?_relaid, hget, Option.map_none]
        rw [step_of_none hget'] at hw
        exact absurd hw (Language.notMem_zero w)
      | some shape =>
        have hget' : (shapes.relaid Layout.broken).get? id = some (shape.relaid Layout.broken) := by
          rw [get?_relaid, hget, Option.map_some]
        rw [step_of_get? hget'] at hw
        rw [step_of_get? hget]
        exact oneLine_shapeStep_le henv shape ⟨hw, hline⟩
  exact fun w hw => hle node hw.1 hw.2

end Shapes

/-! ## Whole grammars -/

section

variable {s : Schema} {external : Assoc Schema} {pad trailing : Nat}

theorem lower_broken (s : Schema) (external : Assoc Schema) (pad : Nat) :
    lower s external ⟨true, pad, 0⟩ =
      (lower s external ⟨false, pad, 0⟩).map (Lowered.relaid Layout.broken) := by
  have hdescend : ∀ layout : Layout, layout.descend.broken = layout.broken.descend := fun _ => rfl
  exact lower_relaid hdescend s external ⟨false, pad, 0⟩

theorem grammarText_error_iff {options : Options} {e : CompileError} :
    grammarText s external options = .error e ↔ lower s external options.layout = .error e := by
  cases hlower : lower s external options.layout with
  | error e' => simp only [grammarText, hlower, bind, Except.bind, Except.error.injEq]
  | ok lowered =>
    obtain ⟨_, _, -, hgrammar, -⟩ := exists_grammarText hlower
    rw [hgrammar]
    simp

theorem isTruthValue_relaid {f : Layout → Layout} {shapes : Shapes} {id : ShapeId} :
    (shapes.relaid f).isTruthValue id = true ↔ shapes.isTruthValue id = true := by
  rw [Shapes.isTruthValue_iff, Shapes.isTruthValue_iff, Shapes.get?_relaid]
  rcases shapes.get? id with _ | shape
  · rfl
  · cases shape <;> simp [Shape.relaid]

/-- What is derived from the two roots: each text without line breaks, and, among those that have
none, no other. -/
theorem accepts_text_broken {lowered lowered' : Lowered} {flat broken : Emitter}
    (hrelaid : lowered.relaid Layout.broken = lowered')
    (hr : lowered.shapes.Ready) (hr' : lowered'.shapes.Ready)
    (hflat : (Emitter.emit lowered.shapes lowered.root).run (Emitter.start lowered.shapes) =
      (.ok (), flat))
    (hbroken : (Emitter.emit lowered'.shapes lowered'.root).run (Emitter.start lowered'.shapes) =
      (.ok (), broken)) (n : Nat) :
    (∀ text, Accepts (flat.text n) text → Accepts (broken.text n) text) ∧
      ∀ text, Accepts (broken.text n) text → '\n' ∉ text.toList → Accepts (flat.text n) text := by
  have htruth : lowered'.shapes.isTruthValue lowered'.root = true ↔
      lowered.shapes.isTruthValue lowered.root = true := by
    subst hrelaid
    exact isTruthValue_relaid
  by_cases ht : lowered.shapes.isTruthValue lowered.root = true
  · have hboth : ∀ text, Accepts (flat.text n) text ↔ Accepts (broken.text n) text := by
      intro text
      rw [accepts_text_of_isTruthValue hr hflat ht,
        accepts_text_of_isTruthValue hr' hbroken (htruth.mpr ht)]
    exact ⟨fun text => (hboth text).mp, fun text h _ => (hboth text).mpr h⟩
  · simp only [accepts_text_of_not_isTruthValue hr hflat ht,
      accepts_text_of_not_isTruthValue hr' hbroken fun h => ht (htruth.mp h)]
    subst hrelaid
    constructor
    · rintro text ⟨u, hu, k, hk, htext⟩
      exact ⟨u, lowered.shapes.language_le_broken _ hu, k, hk, htext⟩
    · rintro text ⟨u, hu, k, hk, htext⟩ hline
      refine ⟨u, lowered.shapes.oneLine_language_broken_le _ ⟨hu, fun hmem => hline ?_⟩, k, hk,
        htext⟩
      rw [htext]
      exact List.mem_append_left _ hmem

end

/-- **Allowing line breaks only adds texts.** A schema has a grammar with line breaks inside the
document if it has one without, and is refused for the same reason if not; the grammar with them
derives all that the other does, and whatever else it derives has a line break. -/
theorem accepts_allowNewLines (s : Schema) (external : Assoc Schema) (pad trailing : Nat) :
    (∀ e, grammarText s external ⟨false, pad, trailing⟩ = .error e ↔
        grammarText s external ⟨true, pad, trailing⟩ = .error e) ∧
      ∀ flat, grammarText s external ⟨false, pad, trailing⟩ = .ok flat →
        ∃ broken, grammarText s external ⟨true, pad, trailing⟩ = .ok broken ∧
          (∀ text, Accepts flat text → Accepts broken text) ∧
          ∀ text, Accepts broken text → '\n' ∉ text.toList → Accepts flat text := by
  have hlower : lower s external (Options.layout ⟨true, pad, trailing⟩) =
      (lower s external (Options.layout ⟨false, pad, trailing⟩)).map
        (Lowered.relaid Layout.broken) :=
    lower_broken s external pad
  refine ⟨fun e => ?_, fun flat hflat => ?_⟩
  · rw [grammarText_error_iff, grammarText_error_iff, hlower]
    cases lower s external (Options.layout ⟨false, pad, trailing⟩) <;> simp [Except.map]
  · obtain ⟨lowered, e, hlowered, hrun, rfl⟩ := grammarText_inv hflat
    rw [hlowered] at hlower
    obtain ⟨e', -, hrun', -⟩ := exists_grammarText hlower
    exact ⟨_, grammarText_of_emit hlower hrun',
      accepts_text_broken rfl (ready_lower hlowered).1 (ready_lower hlower).1 hrun hrun'
        trailing⟩

/-- Trees on one line are the same with line breaks allowed. -/
theorem accepts_allowNewLines_treeSchema : ∃ flat broken,
    grammarText treeSchema [] ⟨false, 4, 0⟩ = .ok flat ∧
      grammarText treeSchema [] ⟨true, 4, 0⟩ = .ok broken ∧
      ∀ text, '\n' ∉ text.toList → (Accepts flat text ↔ Accepts broken text) := by
  obtain ⟨flat, hflat⟩ : ∃ flat, grammarText treeSchema [] ⟨false, 4, 0⟩ = .ok flat :=
    eq_ok_of_isOk (by decide +kernel)
  obtain ⟨broken, hbroken, hadds, hline⟩ := (accepts_allowNewLines treeSchema [] 4 0).2 flat hflat
  exact ⟨flat, broken, hflat, hbroken, fun text h => ⟨hadds text, fun ha => hline text ha h⟩⟩

end SchemaGrammar
