import SchemaGrammar.Proofs.RuleTable
import SchemaGrammar.Proofs.StateRuns

/-!
# The state of an emission

Writing a table of shapes as rules visits shapes in the order they are reached. Some are done and
have a reference, some are definitions whose body is being written, and the others have not been
met. `Underway` says what holds of the definitions in progress. The lemmas on it say what each kind
of change keeps.

## Definitions in progress

A definition that is reached again while its body is being written has its name given away: from
then on the name is in use, and it stays so until the rule is bound. A definition that was not
reached again may share a rule, and then its name is never used.

## Main definitions

* `Underway`: what holds of the definitions in progress.

## Main results

* `Underway.begin`, `Underway.mark`, `Underway.finish`: the life of a definition.
* `run_onRules`, `run_setResolution`: the elementary steps.
-/

namespace SchemaGrammar

open Grammar

/-! ## Definitions in progress -/

/-- The name of a shape in progress. -/
def Resolution.name? : Resolution → Option String
  | .inProgress name _ => some name
  | _ => none

/-- What holds of the definitions in progress: their names are taken for them and not bound. -/
structure Underway (shapes : Shapes) (rules : Rules) (resolution : ShapeId → Resolution) :
    Prop where
  unbound : ∀ {id name}, (resolution id).name? = some name →
    name ∈ rules.taken ∧ name ∉ Assoc.keys rules.entries
  reference : ∀ {id name}, (resolution id).name? = some name →
    ∃ definition target, shapes.get? id = some (.reference definition target)
  distinct : ∀ {id id' name}, (resolution id).name? = some name →
    (resolution id').name? = some name → id = id'

section

variable {shapes : Shapes} {rules rules' : Rules} {resolution : ShapeId → Resolution}
  {id : ShapeId} {name : String}

theorem name?_of_inProgress {referenced : Bool} (h : resolution id = .inProgress name referenced) :
    (resolution id).name? = some name := by
  rw [h]
  rfl

theorem exists_inProgress (h : (resolution id).name? = some name) :
    ∃ referenced, resolution id = .inProgress name referenced := by
  cases hid : resolution id with
  | inProgress other referenced =>
    rw [hid] at h
    exact ⟨referenced, by rw [Option.some.inj h]⟩
  | pending =>
    rw [hid] at h
    cases h
  | done ref =>
    rw [hid] at h
    cases h

/-- A definition in progress is not put together from other shapes. -/
theorem Underway.isComposite_eq_false (h : Underway shapes rules resolution)
    (hid : (resolution id).name? = some name) : shapes.isComposite id = false := by
  obtain ⟨definition, target, hget⟩ := h.reference hid
  simp [Shapes.isComposite, hget, Shape.isComposite]

/-- A shape that is put together from others is not in progress. -/
theorem Underway.name?_eq_none (h : Underway shapes rules resolution)
    (hc : shapes.isComposite id = true) : (resolution id).name? = none := by
  cases hid : (resolution id).name? with
  | none => rfl
  | some name =>
    rw [h.isComposite_eq_false hid] at hc
    cases hc

/-- Rules may be added under names that were not taken. -/
theorem Underway.grow (h : Underway shapes rules resolution) (htaken : rules.taken ⊆ rules'.taken)
    (hkeys : ∀ name ∈ rules.taken, name ∈ Assoc.keys rules'.entries →
      name ∈ Assoc.keys rules.entries) : Underway shapes rules' resolution where
  unbound hid := (h.unbound hid).elim fun ht hn => ⟨htaken ht, fun hk => hn (hkeys _ ht hk)⟩
  reference := h.reference
  distinct := h.distinct

theorem name?_update_done {ref : Body} {j : ShapeId} {other : String}
    (hj : (Function.update resolution id (.done ref) j).name? = some other) :
    j ≠ id ∧ (resolution j).name? = some other := by
  by_cases heq : j = id
  · subst heq
    rw [Function.update_self] at hj
    cases hj
  · rw [Function.update_of_ne heq] at hj
    exact ⟨heq, hj⟩

/-- A shape that is done is no longer in progress. -/
theorem Underway.setDone (h : Underway shapes rules resolution) (id : ShapeId) (ref : Body) :
    Underway shapes rules (Function.update resolution id (.done ref)) where
  unbound hj := h.unbound (name?_update_done hj).2
  reference hj := h.reference (name?_update_done hj).2
  distinct hj hj' := h.distinct (name?_update_done hj).2 (name?_update_done hj').2

/-- A definition is finished: its name may be bound. -/
theorem Underway.finish (h : Underway shapes rules resolution)
    (hid : (resolution id).name? = some name) (htaken : rules'.taken = rules.taken)
    (hkeys : ∀ other ∈ rules.taken, other ∈ Assoc.keys rules'.entries →
      other ∈ Assoc.keys rules.entries ∨ other = name) (ref : Body) :
    Underway shapes rules' (Function.update resolution id (.done ref)) where
  unbound hj := by
    obtain ⟨hne, hj⟩ := name?_update_done hj
    obtain ⟨ht, hc⟩ := h.unbound hj
    refine ⟨htaken ▸ ht, fun hk => ?_⟩
    rcases hkeys _ ht hk with hk | rfl
    · exact hc hk
    · exact hne (h.distinct hj hid)
  reference hj := h.reference (name?_update_done hj).2
  distinct hj hj' := h.distinct (name?_update_done hj).2 (name?_update_done hj').2

/-- A definition is begun under a new name. -/
theorem Underway.begin (h : Underway shapes rules resolution) {definition : String}
    {target : Option ShapeId} (hget : shapes.get? id = some (.reference definition target))
    (htaken : name ∉ rules.taken) (hnew : name ∉ Assoc.keys rules.entries) :
    Underway shapes { rules with taken := name :: rules.taken }
      (Function.update resolution id (.inProgress name false)) := by
  have hname : ∀ {j other}, (Function.update resolution id (.inProgress name false) j).name? =
      some other → j = id ∧ other = name ∨ j ≠ id ∧ (resolution j).name? = some other := by
    intro j other hj
    by_cases heq : j = id
    · subst heq
      rw [Function.update_self] at hj
      exact .inl ⟨rfl, (Option.some.inj hj).symm⟩
    · rw [Function.update_of_ne heq] at hj
      exact .inr ⟨heq, hj⟩
  refine ⟨?_, ?_, ?_⟩
  · intro j other hj
    rcases hname hj with ⟨-, rfl⟩ | ⟨-, hj⟩
    · exact ⟨List.mem_cons_self, hnew⟩
    · exact ⟨List.mem_cons_of_mem _ (h.unbound hj).1, (h.unbound hj).2⟩
  · intro j other hj
    rcases hname hj with ⟨rfl, -⟩ | ⟨-, hj⟩
    · exact ⟨definition, target, hget⟩
    · exact h.reference hj
  · intro j j' other hj hj'
    rcases hname hj with ⟨hid, hn⟩ | ⟨-, hold⟩ <;> rcases hname hj' with ⟨hid', hn'⟩ | ⟨-, hold'⟩
    · rw [hid, hid']
    · exact absurd (hn ▸ (h.unbound hold').1) htaken
    · exact absurd (hn' ▸ (h.unbound hold).1) htaken
    · exact h.distinct hold hold'

theorem name?_update_mark {referenced : Bool} (hid : resolution id = .inProgress name referenced)
    (j : ShapeId) : (Function.update resolution id (.inProgress name true) j).name? =
      (resolution j).name? := by
  by_cases heq : j = id
  · subst heq
    rw [Function.update_self, hid]
    rfl
  · rw [Function.update_of_ne heq]

/-- A definition in progress is referred to. -/
theorem Underway.mark (h : Underway shapes rules resolution) {referenced : Bool}
    (hid : resolution id = .inProgress name referenced) :
    Underway shapes rules (Function.update resolution id (.inProgress name true)) where
  unbound hj := h.unbound (name?_update_mark hid _ ▸ hj)
  reference hj := h.reference (name?_update_mark hid _ ▸ hj)
  distinct hj hj' := h.distinct (name?_update_mark hid _ ▸ hj) (name?_update_mark hid _ ▸ hj')

end

/-! ## Elementary steps -/

section

variable {α : Type} {shapes : Shapes} {e : Emitter}

theorem run_onRules {step : StateM Rules α} {a : α} {rules : Rules}
    (h : step e.rules = (a, rules)) :
    (Emitter.onRules step).run e = (.ok a, { e with rules }) := by
  have hrun : (Emitter.onRules step).run e =
      (.ok (step e.rules).1, { e with rules := (step e.rules).2 }) := rfl
  rw [hrun, h]

theorem Shapes.get?_eq_none {id : ShapeId} (hout : ¬ id < shapes.size) : shapes.get? id = none :=
  Array.getElem?_eq_none (Nat.le_of_not_lt hout)

theorem Shapes.lt_size_of_get? {id : ShapeId} {shape : Shape} (h : shapes.get? id = some shape) :
    id < shapes.size := by
  rw [Shapes.get?, Array.getElem?_eq_some_iff] at h
  exact h.1

theorem run_setResolution (id : ShapeId) (r : Resolution) :
    (Emitter.setResolution id r).run e =
      (.ok (), { e with resolved := e.resolved.setIfInBounds id r }) := rfl

theorem resolution_start (shapes : Shapes) (id : ShapeId) :
    (Emitter.start shapes).resolution id = .pending := by
  rw [Emitter.resolution, Emitter.start, Array.getElem?_replicate]
  split_ifs <;> rfl

theorem resolution_setIfInBounds {id : ShapeId} (h : id < e.resolved.size) (r : Resolution) :
    Emitter.resolution { e with resolved := e.resolved.setIfInBounds id r } =
      Function.update e.resolution id r := by
  funext j
  by_cases hj : j = id
  · subst hj
    simp [Emitter.resolution, h]
  · rw [Function.update_of_ne hj]
    simp [Emitter.resolution, Array.getElem?_setIfInBounds_ne (Ne.symm hj)]

theorem lt_size_of_name? {id : ShapeId} {name : String} (h : (e.resolution id).name? = some name) :
    id < e.resolved.size := by
  by_contra hlt
  rw [Emitter.resolution, Array.getElem?_eq_none (Nat.le_of_not_lt hlt)] at h
  cases h

end

end SchemaGrammar
