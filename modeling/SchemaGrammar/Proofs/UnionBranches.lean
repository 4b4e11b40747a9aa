import SchemaGrammar.Proofs.CheckRun

/-!
# Branches of a union

A union tries its branches one after the other. A branch that fails leaves something behind: the
scopes that it recorded for the definitions it came through. The first scope recorded for a
definition stays, so what an earlier branch had in scope may show through in a later one. In a
lexically scoped document it does not matter, since a definition there uses no name that it gets
from where it is referred to: a union then accepts what one of its branches accepts alone.

## Main definitions

* `Schema.unionOf`: a union with definitions around it.

## Main results

* `validate_unionOf_iff`: a union accepts what one of its branches accepts alone.
* `validate_leakyUnion`: if the document is not lexically scoped, it may accept less.
-/

namespace SchemaGrammar

open Json (Value)

/-- A union with definitions around it. -/
def Schema.unionOf (definitions : Assoc Schema) (branches : List Schema) : Schema :=
  { definitions := some definitions, anyOf := some branches }

section

variable {definitions external : Assoc Schema} {branches chosen : List Schema}

theorem Schema.mem_children_unionOf {e : PlaceStep × Schema} :
    e ∈ (unionOf definitions branches).children ↔
      (∃ x ∈ branches.zipIdx, (.anyOf x.2, x.1) = e) ∨
        ∃ x ∈ definitions, (.definition x.1, x.2) = e := by
  simp [children, unionOf, declared, ownDefinitions]

/-- What holds of the fragments of a union holds of those of a union of some of its branches. -/
theorem Schema.forall_children_chosen (hsub : chosen ⊆ branches) (P : Schema → Prop)
    (h : ∀ e ∈ (unionOf definitions branches).children, P e.2) :
    ∀ e ∈ (unionOf definitions chosen).children, P e.2 := by
  intro e he
  rcases mem_children_unionOf.mp he with ⟨x, hx, rfl⟩ | hdefinition
  · obtain ⟨i, hi⟩ := exists_mem_zipIdx (hsub (List.fst_mem_of_mem_zipIdx hx))
    exact h (.anyOf i, x.1) (mem_children_unionOf.mpr (.inl ⟨_, hi, rfl⟩))
  · exact h e (mem_children_unionOf.mpr (.inr hdefinition))

theorem LexicallyScoped.unionOf_chosen (h : LexicallyScoped (.unionOf definitions branches) external)
    (hsub : chosen ⊆ branches) : LexicallyScoped (.unionOf definitions chosen) external := by
  obtain ⟨hreference, hchildren⟩ := Schema.isScoped_iff.mp h.schema
  exact ⟨Schema.isScoped_iff.mpr ⟨hreference, Schema.forall_children_chosen hsub
    (fun c => c.isScoped (definitions.keys ++ external.keys) = true) hchildren⟩, h.external⟩

theorem DistinctNames.unionOf_chosen (h : DistinctNames (.unionOf definitions branches) external)
    (hsub : chosen ⊆ branches) : DistinctNames (.unionOf definitions chosen) external := by
  obtain ⟨hdeclared, hown, hchildren⟩ := Schema.isDistinct_iff.mp h.schema
  exact ⟨h.names, Schema.isDistinct_iff.mpr ⟨hdeclared, hown, Schema.forall_children_chosen hsub
    (fun c => c.isDistinct = true) hchildren⟩, h.external⟩

/-- What a union of some of the branches accepts, by what the branches mean. -/
theorem validate_chosen_iff (hd : DistinctNames (.unionOf definitions branches) external)
    (hs : LexicallyScoped (.unionOf definitions branches) external) (hsub : chosen ⊆ branches)
    (value : Value) :
    validate (.unionOf definitions chosen) external value = .ok () ↔
      ∃ b ∈ chosen, Schema.Admits noDemand ∅ [definitions, external] b value := by
  rw [← validateUnder_noDemand, validateUnder_iff (hd.unionOf_chosen hsub) (hs.unionOf_chosen hsub),
    Schema.admits_iff]
  exact and_iff_left rfl

/-- **A failed branch leaves no trace** in a lexically scoped document: a union accepts what one of
its branches accepts alone, so the order of the branches does not matter. -/
theorem validate_unionOf_iff (hd : DistinctNames (.unionOf definitions branches) external)
    (hs : LexicallyScoped (.unionOf definitions branches) external) (value : Value) :
    (validate (.unionOf definitions branches) external value = .ok () ↔
      ∃ b ∈ branches, validate (.unionOf definitions [b]) external value = .ok ()) ∧
    ∀ reordered, reordered.Perm branches →
      (validate (.unionOf definitions reordered) external value = .ok () ↔
        validate (.unionOf definitions branches) external value = .ok ()) := by
  have hall := validate_chosen_iff hd hs (List.Subset.refl branches) value
  have halone : ∀ b ∈ branches, validate (.unionOf definitions [b]) external value = .ok () ↔
      Schema.Admits noDemand ∅ [definitions, external] b value := by
    intro b hb
    rw [validate_chosen_iff hd hs (List.cons_subset.mpr ⟨hb, List.nil_subset _⟩)]
    simp only [List.mem_singleton, exists_eq_left]
  refine ⟨hall.trans (exists_congr fun b => and_congr_right fun hb => (halone b hb).symm), ?_⟩
  intro reordered hperm
  rw [validate_chosen_iff hd hs hperm.subset, hall]
  simp only [hperm.mem_iff]

end

/-! ## Names from the place of a reference -/

/-- A branch that refers to the definition `a` where `x` is a type. -/
def branchWith (type : TypeName) : Schema :=
  { definitions := some [("x", { types := some (.one type) })], reference := some "#/$defs/a" }

/-- A definition with another one inside it, which refers to `x`. -/
def nestedDefinition : Schema :=
  { definitions := some [("b", { reference := some "#/$defs/x" })],
    reference := some "#/$defs/b" }

theorem validate_shadowedUnion_iff :
    let definitions := [("a", nestedDefinition), ("x", { types := some (.one .integer) })]
    let branches := [branchWith .string, branchWith .null]
    DistinctNames (.unionOf definitions branches) [] ∧
      LexicallyScoped (.unionOf definitions branches) [] ∧
      (validate (.unionOf definitions branches) [] (.number (.integer 5)) = .ok () ↔
        ∃ b ∈ branches, validate (.unionOf definitions [b]) [] (.number (.integer 5)) = .ok ()) := by
  intro definitions branches
  have hd : DistinctNames (.unionOf definitions branches) [] :=
    ⟨by simp [Assoc.keys], by decide +kernel, by simp⟩
  have hs : LexicallyScoped (.unionOf definitions branches) [] :=
    ⟨by decide +kernel, by simp⟩
  exact ⟨hd, hs, (validate_unionOf_iff hd hs _).1⟩

/-- If the document is not lexically scoped, a value may be refused for what a failed branch left
behind: the first branch fails, and the second one does then, though it accepts the value alone or
in the other order. -/
theorem validate_leakyUnion :
    (validate (.unionOf [("a", nestedDefinition)] [branchWith .string, branchWith .number]) []
        (.number (.integer 5))).isOk = false ∧
      (validate (.unionOf [("a", nestedDefinition)] [branchWith .number]) []
        (.number (.integer 5))).isOk = true ∧
      (validate (.unionOf [("a", nestedDefinition)] [branchWith .number, branchWith .string]) []
        (.number (.integer 5))).isOk = true := by
  decide +kernel

end SchemaGrammar
