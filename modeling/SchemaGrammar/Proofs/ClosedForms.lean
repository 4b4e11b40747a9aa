import SchemaGrammar.Proofs.LoweredShapes

/-!
# Languages that forms stay in

The languages of shapes are a least solution, so a language has all their words as soon as nothing
that a shape can make of its words leaves it. What a shape makes is a leaf, a list or an object, and
a choice or a reference adds nothing. So a property of all texts comes down to four facts about
words, one for each form (`ClosedForms`), and the walk over shapes is made here, once.

## Main definitions

* `Row`: entries with commas between them.
* `ClosedForms`: languages of values and of members that are closed under all forms.

## Main results

* `ClosedForms.language_le`: such a language has all words of a table of shapes.
-/

namespace SchemaGrammar

open Grammar

/-- Entries with a comma between two of them, and blanks after each comma. -/
inductive Row (entries blanks : Language Char) : List Char → Prop
  | one {w : List Char} (hw : w ∈ entries) : Row entries blanks w
  | more {u b w : List Char} (hu : u ∈ entries) (hb : b ∈ blanks) (hw : Row entries blanks w) :
      Row entries blanks (u ++ ',' :: (b ++ w))

/-- Languages of values and of members of objects that no form leaves. Line breaks are among the
blanks of a container only where `lines` admits them. -/
structure ClosedForms (lines : Bool) (values members : Language Char) : Prop where
  leaf : ∀ {t : Terminal}, t.isValue = true → t.language ≤ values
  list : ∀ {layout : Layout} {b w b' : List Char}, (layout.newLines = true → lines = true) →
    b ∈ layout.descend.blanks → (w = [] ∨ Row values layout.descend.blanks w) →
    b' ∈ layout.blanks → '[' :: (b ++ w ++ b') ++ [']'] ∈ values
  object : ∀ {layout : Layout} {b w b' : List Char}, (layout.newLines = true → lines = true) →
    b ∈ layout.descend.blanks → (w = [] ∨ Row members layout.descend.blanks w) →
    b' ∈ layout.blanks → '\x7b' :: (b ++ w ++ b') ++ ['\x7d'] ∈ values
  entry : ∀ {name : Terminal} {k g v : List Char},
    name = .string {} ∨ (∃ text, name = .stringLiteral text) → k ∈ name.language → k ∈ values →
    g = [] ∨ g = [' '] → v ∈ values → k ++ ':' :: (g ++ v) ∈ members

theorem row_of_mem_joined {entries blanks : Language Char} {ls : List (Language Char)}
    (hls : ∀ l ∈ ls, l ≤ entries) {w : List Char} (hw : w ∈ joined (comma blanks) ls) :
    w = [] ∨ Row entries blanks w := by
  have hrow : ∀ l ls, (∀ m ∈ l :: ls, m ≤ entries) → ∀ w ∈ joined (comma blanks) (l :: ls),
      Row entries blanks w := by
    intro l ls hls w hw
    obtain ⟨hl, hrest⟩ := List.forall_mem_cons.mp hls
    induction ls generalizing l w with
    | nil =>
      rw [joined_cons, List.map_nil, List.prod_nil, mul_one] at hw
      exact .one (hl hw)
    | cons l' ls ih =>
      rw [joined_cons_of_ne_nil (List.cons_ne_nil l' ls)] at hw
      obtain ⟨_, hfirst, v, hv, rfl⟩ := Language.mem_mul.mp hw
      obtain ⟨u, hu, _, hcomma, rfl⟩ := Language.mem_mul.mp hfirst
      obtain ⟨_, rfl, b, hb, rfl⟩ := Language.mem_mul.mp hcomma
      obtain ⟨hl', hrest'⟩ := List.forall_mem_cons.mp hrest
      simpa using Row.more (hl hu) hb (ih l' hrest v hv hl' hrest')
  cases ls with
  | nil => exact .inl hw
  | cons l ls => exact .inr (hrow l ls hls w hw)

/-- What stands between brackets: blanks on both sides of the entries, if there are any. -/
theorem mem_bracketForm_cases {opening closing : String} {inner outer inside : Language Char}
    {possible : Prop} [Decidable possible] {w : List Char}
    (hw : w ∈ bracketForm opening closing inner outer possible inside) :
    ∃ b x b', (b ∈ inner ∧ x ∈ inside ∨ ¬ possible ∧ b = [] ∧ x = []) ∧ b' ∈ outer ∧
      w = opening.toList ++ (b ++ x ++ b') ++ closing.toList := by
  unfold bracketForm at hw
  split_ifs at hw with hp
  · obtain ⟨_, h₁, _, rfl, rfl⟩ := Language.mem_mul.mp hw
    obtain ⟨_, h₂, b', hb', rfl⟩ := Language.mem_mul.mp h₁
    obtain ⟨_, h₃, x, hx, rfl⟩ := Language.mem_mul.mp h₂
    obtain ⟨_, rfl, b, hb, rfl⟩ := Language.mem_mul.mp h₃
    exact ⟨b, x, b', .inl ⟨hb, hx⟩, hb', by simp⟩
  · obtain ⟨_, h₁, _, rfl, rfl⟩ := Language.mem_mul.mp hw
    obtain ⟨_, rfl, b', hb', rfl⟩ := Language.mem_mul.mp h₁
    exact ⟨[], [], b', .inr ⟨hp, rfl, rfl⟩, hb', rfl⟩

theorem mem_entryForm_cases {key value : Language Char} {w : List Char}
    (hw : w ∈ entryForm key value) :
    ∃ k g v, k ∈ key ∧ (g = [] ∨ g = [' ']) ∧ v ∈ value ∧ w = k ++ ':' :: (g ++ v) := by
  obtain ⟨_, h₁, v, hv, rfl⟩ := Language.mem_mul.mp hw
  obtain ⟨_, h₂, g, hg, rfl⟩ := Language.mem_mul.mp h₁
  obtain ⟨k, hk, _, rfl, rfl⟩ := Language.mem_mul.mp h₂
  exact ⟨k, g, v, hk, hg, hv, by simp⟩

theorem Chosen.subset {α : Type*} {required : α → Bool} {all chosen : List α}
    (h : Chosen required all chosen) : chosen ⊆ all := by
  induction h with
  | nil => exact List.Subset.refl _
  | take _ ih => exact List.cons_subset_cons _ ih
  | skip _ _ ih => exact fun a ha => List.mem_cons_of_mem _ (ih ha)

namespace ClosedForms

variable {lines : Bool} {values members : Language Char}

theorem entryForm_le (h : ClosedForms lines values members) {name : Terminal}
    (hname : name = .string {} ∨ ∃ text, name = .stringLiteral text) :
    entryForm name.language values ≤ members := by
  intro w hw
  obtain ⟨k, g, v, hk, hg, hv, rfl⟩ := mem_entryForm_cases hw
  have hvalue : name.isValue = true := by
    rcases hname with rfl | ⟨text, rfl⟩
    · rfl
    · rfl
  exact h.entry hname hk (h.leaf hvalue hk) hg hv

section

variable (h : ClosedForms lines values members) {layout : Layout}
  (hlayout : layout.newLines = true → lines = true)

include h hlayout

theorem listForm_le {leading : List (Language Char)} {item : Language Char}
    (hl : ∀ l ∈ leading, l ≤ values) (hitem : item ≤ values) (least : Nat) (most : Option Nat) :
    listForm layout.descend.blanks layout.blanks leading item least most ≤ values := by
  intro w hw
  obtain ⟨b, x, b', ⟨hb, n, -, hx⟩ | ⟨-, rfl, rfl⟩, hb', rfl⟩ := mem_bracketForm_cases hw
  · refine h.list hlayout hb (row_of_mem_joined ?_ hx) hb'
    refine List.forall_mem_append.mpr ⟨hl, fun l hmem => ?_⟩
    rwa [List.eq_of_mem_replicate hmem]
  · exact h.list hlayout (.inl (.inl rfl)) (.inl rfl) hb'

theorem objectForm_le {declared : List (Language Char × Bool)} {additional : Option (Language Char)}
    (hd : ∀ m ∈ declared, m.1 ≤ members) (ha : ∀ l ∈ additional, l ≤ members) :
    objectForm layout.descend.blanks layout.blanks declared additional ≤ values := by
  intro w hw
  obtain ⟨b, x, b', ⟨hb, chosen, n, hchosen, -, hx⟩ | ⟨-, rfl, rfl⟩, hb', rfl⟩ :=
    mem_bracketForm_cases hw
  · refine h.object hlayout hb (row_of_mem_joined ?_ hx) hb'
    refine List.forall_mem_append.mpr ⟨?_, fun l hmem => ?_⟩
    · exact List.forall_mem_map.mpr fun m hm => hd m (hchosen.subset hm)
    · rw [List.eq_of_mem_replicate hmem]
      cases additional with
      | none => exact bot_le
      | some l => exact ha l rfl
  · exact h.object hlayout (.inl (.inl rfl)) (.inl rfl) hb'

/-- Values of any form, with others inside them. -/
theorem jsonForm_le : jsonForm layout values ≤ values := by
  rintro w (((((hw | hw) | hw) | hw) | hw) | hw)
  · exact h.leaf rfl hw
  · exact h.leaf rfl hw
  · exact h.leaf rfl hw
  · exact h.leaf rfl hw
  · exact h.listForm_le hlayout (List.forall_mem_nil _) le_rfl 0 none hw
  · refine h.objectForm_le hlayout (List.forall_mem_nil _) ?_ hw
    rintro _ ⟨⟩
    exact h.entryForm_le (.inl rfl)

end

/-- What a well-formed shape makes of values is a value. -/
theorem shapeStep_le {style : Layout} (h : ClosedForms style.newLines values members)
    {shape : Shape} (hw : shape.WellFormed) (hs : shape.Styled style) :
    Shapes.shapeStep (fun _ => values) shape ≤ values := by
  have hlines : ∀ {layout : Layout}, layout.style = style → layout.newLines = true →
      style.newLines = true := by
    rintro layout rfl hlayout
    exact hlayout
  cases shape with
  | terminal t => exact h.leaf hw.2
  | enumeration parts =>
    rintro w ⟨_, -, hw⟩
    exact hw
  | union parts =>
    rintro w ⟨_, -, hw⟩
    exact hw
  | reference name target =>
    cases target with
    | none => exact bot_le
    | some target => exact le_rfl
  | array shape =>
    exact h.listForm_le (hlines hs) (List.forall_mem_map.mpr fun _ _ => le_rfl) le_rfl _ _
  | object shape =>
    refine h.objectForm_le (hlines hs) ?_ ?_
    · refine List.forall_mem_map.mpr fun p _ => ?_
      have hentry : entryForm (Terminal.stringLiteral p.key).language values ≤ members :=
        h.entryForm_le (.inr ⟨p.key, rfl⟩)
      exact hentry
    · intro l hl
      obtain ⟨id, -, rfl⟩ := Option.mem_map.mp hl
      exact h.entryForm_le (.inl rfl)
  | anyJson layout => exact h.jsonForm_le (hlines hs)

/-- **A language that no form leaves has all words of a table of shapes.** -/
theorem language_le {style : Layout} (h : ClosedForms style.newLines values members)
    {shapes : Shapes} (hs : shapes.InStyle style) (node : Node) :
    shapes.language node ≤ values := by
  refine (Shapes.language_le ?_ : shapes.language ≤ fun _ => values) node
  intro node
  cases node with
  | line => exact h.jsonForm_le nofun
  | shape id =>
    cases hget : shapes.get? id with
    | none =>
      rw [Shapes.step_of_none hget]
      exact bot_le
    | some shape =>
      rw [Shapes.step_of_get? hget]
      obtain ⟨hwell, hstyled⟩ := hs id shape hget
      exact h.shapeStep_le hwell hstyled

end ClosedForms

end SchemaGrammar
