import SchemaGrammar.Proofs.CompactText
import SchemaGrammar.Proofs.TrailingLineBreaks

/-!
# Lists from schema to grammar

A schema for lists bounds the number of items, and its leading items count as required whatever the
bounds say. The bounds are worked out twice: when the schema is lowered, and again when a value is
checked. Both say the same of every schema that can be lowered at all, and so the grammar derives
lists of exactly the lengths that a check lets pass.

What an item of the list may be is the language of the shape that its fragment is lowered to. These
shapes are named by the run that lowers the document, followed until the items are done
(`Lowering.documentItems`).

## Main definitions

* `Schema.admitsLength`: whether a check of a list lets a number of items pass.
* `Lowering.documentItems`: the shapes of the items of a document.

## Main results

* `mem_language_array_iff`: the words of a list, by the number of its elements.
* `accepts_list_iff`: the texts of a grammar for lists.
-/

namespace SchemaGrammar

open Grammar

/-! ## Lengths that pass a check -/

/-- A check that every value passes. -/
def Checking.accepting : Checker := fun _ _ _ _ => pure ()

/-- Whether a list of `k` items passes the check of its length: nothing is asked of the items. -/
def Schema.admitsLength (s : Schema) (k : Nat) : Bool :=
  ((Checking.array s (s.parts.map fun _ => Checking.accepting) [] (List.replicate k .null) []
    (Scope.ofExternal [])).run {}).1.isOk

theorem Checking.eachItem_accepting {items : Option Checker} {leading : List Checker}
    (hitems : ∀ check ∈ items, check = accepting) (hleading : ∀ check ∈ leading, check = accepting)
    (place : Place) (path : Path) (scope : Scope) (values : List Json.Value) (i : Nat) :
    eachItem items place path scope leading i values = pure () := by
  induction values generalizing leading i with
  | nil => cases leading <;> rfl
  | cons value values ih =>
    cases leading with
    | nil =>
      have hrest : eachItem items place path scope [] (i + 1) values = pure () :=
        ih hleading (i + 1)
      cases items with
      | none => rw [eachItem, hrest]
      | some check =>
        rw [eachItem, hrest, hitems check rfl]
        rfl
    | cons check leading =>
      have hrest := ih (fun other h => hleading other (List.mem_cons_of_mem check h)) (i + 1)
      rw [eachItem, hrest, hleading check List.mem_cons_self]
      rfl

/-- The lengths that pass are those between the bounds, with the leading items counted. -/
theorem Schema.admitsLength_eq (s : Schema) (k : Nat) : s.admitsLength k = s.admitsCount k := by
  have hitems : ∀ check ∈ (s.parts.map fun _ => Checking.accepting).items,
      check = Checking.accepting := by
    intro check hcheck
    obtain ⟨c, -, rfl⟩ := Option.mem_map.mp hcheck
    rfl
  have hleading : ∀ check ∈ (s.parts.map fun _ => Checking.accepting).leading,
      check = Checking.accepting := by
    intro check hcheck
    obtain ⟨c, -, rfl⟩ := List.mem_map.mp hcheck
    rfl
  unfold admitsLength Checking.array
  rw [Checking.eachItem_accepting hitems hleading, leading_map_parts, List.length_map,
    List.length_replicate]
  change ((if s.admitsCount k then _ else _ : CheckM Unit).run {}).1.isOk = _
  cases s.admitsCount k <;> rfl

/-! ## Words of a list -/

section

variable {inner outer inside : Language Char} {w : List Char}

/-- Brackets around one of several insides. -/
theorem mem_bracketForm_iff_exists {opening closing : String} {possible : Prop}
    [Decidable possible] {P : Nat → Prop} {insides : Nat → Language Char} (hne : ∃ k, P k)
    (hinside : ∀ u, u ∈ inside ↔ ∃ k, P k ∧ u ∈ insides k) :
    w ∈ bracketForm opening closing inner outer possible inside ↔
      ∃ k, P k ∧ w ∈ bracketForm opening closing inner outer possible (insides k) := by
  unfold bracketForm
  split
  · simp only [Language.mem_mul, hinside]
    constructor
    · rintro ⟨_, ⟨_, ⟨a, ha, b, ⟨k, hk, hb⟩, rfl⟩, c, hc, rfl⟩, d, hd, rfl⟩
      exact ⟨k, hk, _, ⟨_, ⟨a, ha, b, hb, rfl⟩, c, hc, rfl⟩, d, hd, rfl⟩
    · rintro ⟨k, hk, _, ⟨_, ⟨a, ha, b, hb, rfl⟩, c, hc, rfl⟩, d, hd, rfl⟩
      exact ⟨_, ⟨_, ⟨a, ha, b, ⟨k, hk, hb⟩, rfl⟩, c, hc, rfl⟩, d, hd, rfl⟩
  · exact ⟨fun hw => hne.imp fun k hk => ⟨hk, hw⟩, fun ⟨k, _, hw⟩ => hw⟩

end

/-- The language of the element at a position: that of a leading item, or of the further ones. -/
def Shapes.elementLanguage (shapes : Shapes) (leading : List ShapeId) (items : ShapeId) (i : Nat) :
    Language Char :=
  shapes.language (.shape (leading[i]?.getD items))

theorem Shapes.map_elementLanguage (shapes : Shapes) (leading : List ShapeId) (items : ShapeId)
    (n : Nat) :
    (List.range (leading.length + n)).map (shapes.elementLanguage leading items) =
      leading.map (shapes.language <| .shape ·) ++
        List.replicate n (shapes.language (.shape items)) := by
  refine List.ext_getElem? fun i => ?_
  rw [List.getElem?_map, List.getElem?_append, List.length_map]
  split
  · next hi =>
    rw [List.getElem?_range (by omega), List.getElem?_map]
    simp [elementLanguage, hi]
  · next hi =>
    rw [List.getElem?_replicate]
    split
    · rw [List.getElem?_range (by omega)]
      simp [elementLanguage, List.getElem?_eq_none (Nat.le_of_not_lt hi)]
    · rw [List.getElem?_eq_none (by simp; omega)]
      rfl

/-- **The words of a list, by the number of its elements.** -/
theorem mem_language_array_iff {shapes : Shapes} {id : ShapeId} {shape : ArrayShape}
    (hget : shapes.get? id = some (.array shape)) (hle : shape.leading.length ≤ shape.least)
    (hne : ∃ k, Within shape.least shape.most k) {w : List Char} :
    w ∈ shapes.language (.shape id) ↔ ∃ k, Within shape.least shape.most k ∧
      w ∈ bracketForm "[" "]" shape.layout.descend.blanks shape.layout.blanks
        (¬ (shape.leading.length = 0 ∧ shape.most = some 0))
        (joined (comma shape.layout.descend.blanks)
          ((List.range k).map (shapes.elementLanguage shape.leading shape.items))) := by
  rw [Shapes.language_eq, Shapes.step_of_get? hget, Shapes.shapeStep, listForm, List.length_map]
  refine mem_bracketForm_iff_exists hne fun u => ?_
  rw [mem_elements, List.length_map]
  constructor
  · rintro ⟨n, hn, hu⟩
    exact ⟨_, hn, by rwa [Shapes.map_elementLanguage]⟩
  · rintro ⟨k, hk, hu⟩
    obtain ⟨n, rfl⟩ := Nat.exists_eq_add_of_le (hle.trans hk.1)
    exact ⟨n, hk, by rwa [Shapes.map_elementLanguage] at hu⟩

/-! ## Lowering a list -/

namespace Lowering

/-- The shapes of the items of a list: those of the leading items, and that of the further ones. -/
def listItems (lowerer : Schema → Lowerer) (s : Schema) (place : Place) (layout : Layout)
    (scope : Scope) : LowerM (List ShapeId × ShapeId) := do
  let leading ← ((s.prefixItems.getD []).map lowerer).zipIdx.mapM fun e =>
    e.1 (.leading e.2 :: place) layout.descend scope
  let items ← furtherItems (s.items.map lowerer) place layout.descend scope
  return (leading, items)

/-- The shapes of the items of a document that is a list: the document is lowered until they are
there. -/
def documentItems (s : Schema) (external : Assoc Schema) (layout : Layout) :
    LowerM (List ShapeId × ShapeId) := do
  let scope := Scope.ofExternal external
  modify fun st => { st with registry := st.registry.declare scope }
  let inner ← enter s [] scope
  listItems (·.fold (step (follow (s.definitionTotal external)))) s [] layout inner

theorem length_of_run_mapM {γ α : Type} {f : γ → LowerM α} {list : List γ} {results : List α}
    {st st' : Lowering} (h : (list.mapM f).run st = (.ok results, st')) :
    results.length = list.length := by
  induction list generalizing results st with
  | nil =>
    rw [List.mapM_nil] at h
    cases h
    rfl
  | cons x list ih =>
    rw [List.mapM_cons] at h
    obtain ⟨y, st₁, -, h⟩ := run_bind_ok h
    obtain ⟨ys, st₂, hys, h⟩ := run_bind_ok h
    cases h
    rw [List.length_cons, List.length_cons, ih hys]

/-- The shape of a list, given those of its items. -/
def listShape (s : Schema) (layout : Layout) (leading : List ShapeId) (items : ShapeId) :
    ArrayShape where
  leading := leading
  items := items
  least := max (s.minItems.getD 0) leading.length
  most := s.maxItems.map (max · leading.length)
  layout := layout

theorem array_eq_listItems (s : Schema) (lowerer : Schema → Lowerer) (place : Place)
    (layout : Layout) (scope : Scope) :
    array s (s.parts.map lowerer) place layout scope = (do
      checkItemBounds s
      let ids ← listItems lowerer s place layout scope
      push (.array (listShape s layout ids.1 ids.2))) := by
  rw [array_eq, listItems]
  simp only [bind_assoc, pure_bind]
  rfl

section

variable {s : Schema} {external : Assoc Schema} {lowerer : Schema → Lowerer} {place : Place}
  {layout : Layout} {scope : Scope} {st st' : Lowering} {id : ShapeId}

theorem length_of_run_listItems {leading : List ShapeId} {items : ShapeId}
    (h : (listItems lowerer s place layout scope).run st = (.ok (leading, items), st')) :
    leading.length = (s.prefixItems.getD []).length := by
  obtain ⟨ids, st₁, hmap, hrest⟩ := run_bind_ok h
  obtain ⟨further, st₂, -, hpure⟩ := run_bind_ok hrest
  cases hpure
  rw [length_of_run_mapM hmap, List.length_zipIdx, List.length_map]

/-- What a run that lowers a list has done. -/
theorem run_array_ok
    (h : (array s (s.parts.map lowerer) place layout scope).run st = (.ok id, st')) :
    ∃ leading items st₁,
      (listItems lowerer s place layout scope).run st = (.ok (leading, items), st₁) ∧
      (∀ least ∈ s.minItems, ∀ most ∈ s.maxItems, least ≤ most) ∧
      st'.shapes.get? id = some (.array (listShape s layout leading items)) := by
  rw [array_eq_listItems] at h
  obtain ⟨_, st₀, hcheck, hrest⟩ := run_bind_ok h
  obtain ⟨rfl, hbounds⟩ := run_checkItemBounds hcheck
  obtain ⟨⟨leading, items⟩, st₁, hitems, hpush⟩ := run_bind_ok hrest
  cases hpush
  exact ⟨leading, items, st₁, hitems, hbounds, Shapes.get?_push_self _ _⟩

/-- A document whose only type is that of lists is lowered as a list. -/
theorem run_document_ok (hs : s.criterion = .types [.array])
    (h : (document s external layout).run {} = (.ok id, st')) :
    ∃ leading items st₁,
      (documentItems s external layout).run {} = (.ok (leading, items), st₁) ∧
      leading.length = (s.prefixItems.getD []).length ∧
      (∀ least ∈ s.minItems, ∀ most ∈ s.maxItems, least ≤ most) ∧
      st'.shapes.get? id = some (.array (listShape s layout leading items)) := by
  let st₀ : Lowering := { registry := ScopeRegistry.declare {} (Scope.ofExternal external) }
  have hfold : (s.fold (step (follow (s.definitionTotal external))) [] layout
      (Scope.ofExternal external)).run st₀ = (.ok id, st') := h
  have hdocument : (documentItems s external layout).run {} =
      (enter s [] (Scope.ofExternal external) >>= fun inner =>
        listItems (·.fold (step (follow (s.definitionTotal external)))) s [] layout
          inner).run st₀ :=
    rfl
  rw [Schema.fold_eq] at hfold
  rw [hdocument, run_enter_bind]
  rcases step_cases (follow (s.definitionTotal external))
      (·.fold (step (follow (s.definitionTotal external)))) s [] layout
      (Scope.ofExternal external) with ⟨-, hstep⟩ | ⟨-, hstep⟩
  · rw [hstep, run_enter_bind] at hfold
    cases hfold
  · rw [hstep, run_enter_bind, hs] at hfold
    obtain ⟨ids, st₁, hmap, hchoice⟩ := run_bind_ok hfold
    rw [List.mapM_cons] at hmap
    obtain ⟨root, st₂, harray, hmap⟩ := run_bind_ok hmap
    obtain ⟨rest, st₃, hnil, hpure⟩ := run_bind_ok hmap
    rw [List.mapM_nil] at hnil
    cases hnil
    cases hpure
    cases hchoice
    obtain ⟨leading, items, st₁, hitems, hbounds, hget⟩ := run_array_ok harray
    exact ⟨leading, items, st₁, hitems, length_of_run_listItems hitems, hbounds, hget⟩

end

end Lowering

/-! ## Grammars for lists -/

theorem bracketForm_congr {opening closing : String} {inner outer inside : Language Char}
    {possible possible' : Prop} [Decidable possible] [Decidable possible']
    (h : possible ↔ possible') :
    bracketForm opening closing inner outer possible inside =
      bracketForm opening closing inner outer possible' inside := by
  simp only [bracketForm, h]

section

variable {s : Schema} {layout : Layout} {leading : List ShapeId} {items : ShapeId}

/-- The bounds of a list that was lowered are those that a check goes by. -/
theorem Lowering.within_listShape_iff (hlen : leading.length = (s.prefixItems.getD []).length)
    (hbounds : ∀ least ∈ s.minItems, ∀ most ∈ s.maxItems, least ≤ most) {k : Nat} :
    Within (listShape s layout leading items).least (listShape s layout leading items).most k ↔
      s.admitsLength k = true := by
  rw [s.admitsLength_eq, ← within_widened hbounds, Checking.within_iff, ← hlen]
  rfl

theorem Lowering.exists_within_listShape
    (hbounds : ∀ least ∈ s.minItems, ∀ most ∈ s.maxItems, least ≤ most) :
    ∃ k, Within (listShape s layout leading items).least
      (listShape s layout leading items).most k := by
  refine ⟨_, le_rfl, fun m hm => ?_⟩
  obtain ⟨most, hmost, rfl⟩ := Option.mem_map.mp hm
  refine max_le_max ?_ le_rfl
  cases hmin : s.minItems with
  | none => exact Nat.zero_le most
  | some least => exact hbounds least hmin most hmost

/-- The words of a list that was lowered, by the number of its elements. -/
theorem Lowering.mem_language_listShape_iff {shapes : Shapes} {id : ShapeId}
    (hget : shapes.get? id = some (.array (listShape s layout leading items)))
    (hlen : leading.length = (s.prefixItems.getD []).length)
    (hbounds : ∀ least ∈ s.minItems, ∀ most ∈ s.maxItems, least ≤ most) {w : List Char} :
    w ∈ shapes.language (.shape id) ↔ ∃ k, s.admitsLength k = true ∧
      w ∈ bracketForm "[" "]" layout.descend.blanks layout.blanks
        (¬ ((s.prefixItems.getD []).length = 0 ∧ s.maxItems = some 0))
        (joined (comma layout.descend.blanks)
          ((List.range k).map (shapes.elementLanguage leading items))) := by
  have hle : leading.length ≤ max (s.minItems.getD 0) leading.length := Nat.le_max_right _ _
  have hpossible : leading.length = 0 ∧ s.maxItems.map (max · leading.length) = some 0 ↔
      (s.prefixItems.getD []).length = 0 ∧ s.maxItems = some 0 := by
    rw [← hlen]
    refine and_congr_right fun hzero => ?_
    cases s.maxItems <;> simp [hzero]
  rw [mem_language_array_iff hget hle (exists_within_listShape hbounds)]
  simp only [within_listShape_iff hlen hbounds]
  refine exists_congr fun k => and_congr_right fun _ => ?_
  exact iff_of_eq (congrArg (w ∈ ·) (bracketForm_congr (not_congr hpossible)))

end

/-- **The texts of a grammar for lists** are lists in brackets, of exactly the lengths that pass a
check. The element at a position is one of the leading item there or, behind the leading items, one
of the further items. -/
theorem accepts_list_iff {s : Schema} {external : Assoc Schema} {options : Options}
    {grammar : String} (hs : s.criterion = .types [.array])
    (h : grammarText s external options = .ok grammar) :
    ∃ lowered leading items st,
      lower s external options.layout = .ok lowered ∧
      (Lowering.documentItems s external options.layout).run {} = (.ok (leading, items), st) ∧
      leading.length = (s.prefixItems.getD []).length ∧
      ∀ text : String, Accepts grammar text ↔
        ∃ u k, s.admitsLength k = true ∧
          u ∈ bracketForm "[" "]" options.layout.descend.blanks options.layout.blanks
            (¬ ((s.prefixItems.getD []).length = 0 ∧ s.maxItems = some 0))
            (joined (comma options.layout.descend.blanks)
              ((List.range k).map (lowered.shapes.elementLanguage leading items))) ∧
          ∃ n ≤ options.trailingNewLines, text.toList = u ++ List.replicate n '\n' := by
  obtain ⟨lowered, e, hlower, hrun, rfl⟩ := grammarText_inv h
  obtain ⟨root, st, hdocument, rfl⟩ := lower_inv hlower
  obtain ⟨leading, items, st₁, hitems, hlen, hbounds, hget⟩ :=
    Lowering.run_document_ok hs hdocument
  refine ⟨_, leading, items, st₁, hlower, hitems, hlen, fun text => ?_⟩
  have htruth : ¬ st.shapes.isTruthValue root = true := by
    rw [Shapes.isTruthValue_iff, hget]
    simp
  rw [accepts_text_of_not_isTruthValue (ready_lower hlower).1 hrun htruth]
  simp only [Lowering.mem_language_listShape_iff hget hlen hbounds]
  constructor
  · rintro ⟨u, ⟨k, hk, hu⟩, hbreaks⟩
    exact ⟨u, k, hk, hu, hbreaks⟩
  · rintro ⟨u, k, hk, hu, hbreaks⟩
    exact ⟨u, ⟨k, hk, hu⟩, hbreaks⟩

/-- A name, and up to two numbers behind it. -/
def scoreSchema : Schema :=
  { types := some (.one .array)
    prefixItems := some [{ types := some (.one .string) }]
    items := some { types := some (.one .integer) }
    maxItems := some 3 }

theorem accepts_scoreSchema_iff :
    ∃ grammar, grammarText scoreSchema [] {} = .ok grammar ∧
      ∃ lowered leading items,
        leading.length = 1 ∧
        ∀ text : String, Accepts grammar text ↔
          ∃ u k, scoreSchema.admitsLength k = true ∧
            u ∈ bracketForm "[" "]" (Layout.blanks ⟨true, 4, 1⟩) (Layout.blanks ⟨true, 4, 0⟩)
              (¬ (1 = 0 ∧ some 3 = some 0))
              (joined (comma (Layout.blanks ⟨true, 4, 1⟩))
                ((List.range k).map (Shapes.elementLanguage lowered leading items))) ∧
            ∃ n ≤ 4, text.toList = u ++ List.replicate n '\n' := by
  obtain ⟨grammar, hg⟩ : ∃ grammar, grammarText scoreSchema [] {} = .ok grammar :=
    eq_ok_of_isOk (by decide +kernel)
  obtain ⟨lowered, leading, items, st, hlower, hitems, hlen, haccepts⟩ := accepts_list_iff rfl hg
  exact ⟨grammar, hg, lowered.shapes, leading, items, hlen, haccepts⟩

/-- Between one and three elements are admitted. -/
example : (List.range 5).filter scoreSchema.admitsLength = [1, 2, 3] := by decide

end SchemaGrammar
