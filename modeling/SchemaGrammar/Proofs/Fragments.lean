import SchemaGrammar.Definitions.Scope
import SchemaGrammar.Schema.Fold

/-!
# Fragments of a schema

A schema is made of fragments, each reached from the one around it by one step. Whatever holds of
a fragment if it holds of the fragments it is made of holds of all schemas.

## Main definitions

* `Schema.children`: the fragments that a fragment is made of.

## Main results

* `Schema.induction`: induction over fragments.
-/

namespace SchemaGrammar

/-- The fragment that undeclared members must fit, if there is one. -/
def Additional.fragment? {σ : Type} : Additional σ → Option σ
  | .allowed _ => none
  | .schema fragment => some fragment

namespace Schema

/-- The fragments that a fragment is made of, with the step to each. -/
def children (s : Schema) : List (PlaceStep × Schema) :=
  s.declared.map (fun e => (.property e.1, e.2)) ++
    (s.additional.bind Additional.fragment?).toList.map (fun child => (.additional, child)) ++
    s.items.toList.map (fun child => (.items, child)) ++
    (s.prefixItems.getD []).zipIdx.map (fun e => (.leading e.2, e.1)) ++
    (s.oneOf.getD []).zipIdx.map (fun e => (.oneOf e.2, e.1)) ++
    (s.anyOf.getD []).zipIdx.map (fun e => (.anyOf e.2, e.1)) ++
    s.ownDefinitions.map fun e => (.definition e.1, e.2)

section

variable {s child : Schema} {i : Nat}

theorem property_mem_children {e : String × Schema} (h : e ∈ s.declared) :
    (.property e.1, e.2) ∈ s.children := by
  simp only [children, List.mem_append]
  exact .inl (.inl (.inl (.inl (.inl (.inl (List.mem_map.mpr ⟨e, h, rfl⟩))))))

theorem additional_mem_children (h : s.additional = some (.schema child)) :
    (.additional, child) ∈ s.children := by
  simp [children, h, Additional.fragment?]

theorem items_mem_children (h : s.items = some child) : (.items, child) ∈ s.children := by
  simp [children, h]

theorem leading_mem_children (h : (child, i) ∈ (s.prefixItems.getD []).zipIdx) :
    (.leading i, child) ∈ s.children := by
  simp only [children, List.mem_append]
  exact .inl (.inl (.inl (.inr (List.mem_map.mpr ⟨_, h, rfl⟩))))

theorem oneOf_mem_children {branches : List Schema} (hb : s.oneOf = some branches)
    (h : (child, i) ∈ branches.zipIdx) : (.oneOf i, child) ∈ s.children := by
  simp only [children, List.mem_append, hb]
  exact .inl (.inl (.inr (List.mem_map.mpr ⟨_, h, rfl⟩)))

theorem anyOf_mem_children {branches : List Schema} (hb : s.anyOf = some branches)
    (h : (child, i) ∈ branches.zipIdx) : (.anyOf i, child) ∈ s.children := by
  simp only [children, List.mem_append, hb]
  exact .inl (.inr (List.mem_map.mpr ⟨_, h, rfl⟩))

theorem definition_mem_children {e : String × Schema} (h : e ∈ s.ownDefinitions) :
    (.definition e.1, e.2) ∈ s.children := by
  simp only [children, List.mem_append]
  exact .inr (List.mem_map.mpr ⟨e, h, rfl⟩)

end

section

variable {α : Type} (f : Schema → α) (s : Schema)

theorem properties_map_parts :
    (s.parts.map f).properties = s.declared.map fun e => (e.1, f e.2) := rfl

theorem additional_map_parts :
    (s.parts.map f).additional = s.additional.map (mapAdditional f) := rfl

theorem items_map_parts : (s.parts.map f).items = s.items.map f := rfl

theorem leading_map_parts : (s.parts.map f).leading = (s.prefixItems.getD []).map f := rfl

end

theorem exists_mem_zipIdx {list : List Schema} {child : Schema} (h : child ∈ list) :
    ∃ i, (child, i) ∈ list.zipIdx := by
  obtain ⟨i, hi⟩ := List.mem_iff_getElem?.mp h
  exact ⟨i, List.mk_mem_zipIdx_iff_getElem?.mpr hi⟩

theorem sizeOf_lt_of_mem_getD {list : Option (List Schema)} {i : Nat} {child : Schema}
    (h : (child, i) ∈ (list.getD []).zipIdx) : sizeOf child < sizeOf list := by
  cases list with
  | none => simp at h
  | some list =>
    have hlt : sizeOf child < sizeOf list :=
      List.sizeOf_lt_of_mem (List.fst_mem_of_mem_zipIdx h)
    simp only [Option.some.sizeOf_spec]
    omega

theorem sizeOf_lt_of_mem_named {list : Option (List (String × Schema))} {e : String × Schema}
    (h : e ∈ list.getD []) : sizeOf e.2 < sizeOf list := by
  cases list with
  | none => simp at h
  | some list =>
    obtain ⟨name, child⟩ := e
    have hlt : sizeOf (name, child) < sizeOf list := List.sizeOf_lt_of_mem h
    simp only [Prod.mk.sizeOf_spec] at hlt
    simp only [Option.some.sizeOf_spec]
    omega

theorem sizeOf_lt_of_mem_children {s : Schema} {e : PlaceStep × Schema} (h : e ∈ s.children) :
    sizeOf e.2 < sizeOf s := by
  obtain ⟨types, properties, required, additional, items, prefixItems, minItems, maxItems,
    minLength, maxLength, format, enumeration, constant, oneOf, anyOf, definitions, reference,
    description⟩ := s
  simp only [children, List.mem_append, List.mem_map, declared, ownDefinitions] at h
  simp only [mk.sizeOf_spec]
  rcases h with (((((⟨e, he, rfl⟩ | ⟨e, he, rfl⟩) | ⟨e, he, rfl⟩) | ⟨e, he, rfl⟩) | ⟨e, he, rfl⟩) |
    ⟨e, he, rfl⟩) | ⟨e, he, rfl⟩
  · have := sizeOf_lt_of_mem_named he
    dsimp only
    omega
  · rcases additional with _ | (_ | child)
    · simp at he
    · simp [Additional.fragment?] at he
    · simp [Additional.fragment?] at he
      subst he
      simp
      omega
  · cases items with
    | none => simp at he
    | some child =>
      simp at he
      subst he
      simp
      omega
  · have := sizeOf_lt_of_mem_getD he
    dsimp only
    omega
  · have := sizeOf_lt_of_mem_getD he
    dsimp only
    omega
  · have := sizeOf_lt_of_mem_getD he
    dsimp only
    omega
  · have := sizeOf_lt_of_mem_named he
    dsimp only
    omega

/-- Induction over fragments. -/
theorem induction {motive : Schema → Prop}
    (h : ∀ s, (∀ e ∈ s.children, motive e.2) → motive s) (s : Schema) : motive s :=
  h s fun e _ => induction h e.2
termination_by sizeOf s
decreasing_by exact sizeOf_lt_of_mem_children ‹_›

end Schema

end SchemaGrammar
