import SchemaGrammar.Proofs.SchemaMeaning

/-!
# Leaving definitions out

A name may be taken out of a document: all definitions of that name go, at all depths, and all else
stays. Whatever a run keeps of definitions can be taken to what it would keep without them. Scopes
lose an entry, and what is recorded under other names is the same up to that.

One step is not obvious. Inside a definition both the scope it was declared in and the one it is
referred to from are visible, unless they agree. Two scopes that do not agree may do so when a name
is left out; but then they are equal, and an equal scope hides nothing.

A fragment that gets its first definition makes a run record the whole scope there. This makes no
difference as long as everything in scope has been recorded before.

## Main definitions

* `Schema.without`, `Scope.without`: what is left when a name is taken out.
* `Schema.avoids`: nothing that is left refers to the name.
* `ScopeRegistry.Parallel`: what two runs have recorded, with and without the name.

## Main results

* `Scope.visible_without`: what is visible inside a definition.
* `ScopeRegistry.Parallel.entered`, `ScopeRegistry.Parallel.referred`: entering a fragment and
  following a reference.
-/

namespace SchemaGrammar

/-! ## Schemas -/

namespace Schema

/-- The parts without definitions of the given name. -/
def Parts.drop {α : Type} (name : String) (p : Parts α) : Parts α :=
  { p with definitions := p.definitions.filter fun e => e.1 != name }

/-- The schema without definitions of the given name, at all depths. -/
def without (name : String) : Schema → Schema :=
  fold fun s p =>
    { s with
      properties := s.properties.map fun _ => p.properties
      additional := p.additional
      items := p.items
      prefixItems := s.prefixItems.map fun _ => p.leading
      oneOf := p.oneOf
      anyOf := p.anyOf
      definitions := some (p.drop name).definitions }

/-- Whether no reference is to the given name, those in definitions of that name not counted. -/
def avoids (name : String) : Schema → Bool :=
  fold fun s p =>
    decide (s.reference.bind definitionName? ≠ some name) && (p.drop name).all id

end Schema

/-- Named schemas without those of some name and definitions of that name in the others. -/
def definitionsWithout (name : String) (definitions : Assoc Schema) : Assoc Schema :=
  (definitions.filter fun e => e.1 != name).map fun e => (e.1, e.2.without name)

namespace Schema

variable {name : String} {s : Schema}

theorem without_eq (name : String) (s : Schema) :
    s.without name =
      { s with
        properties := s.properties.map (·.map fun e => (e.1, e.2.without name))
        additional := s.additional.map (mapAdditional (without name))
        items := s.items.map (without name)
        prefixItems := s.prefixItems.map (·.map (without name))
        oneOf := s.oneOf.map (·.map (without name))
        anyOf := s.anyOf.map (·.map (without name))
        definitions := some (definitionsWithout name s.ownDefinitions) } := by
  have hproperties : (s.properties.map fun _ => (s.properties.getD []).map fun e =>
      (e.1, e.2.without name)) = s.properties.map (·.map fun e => (e.1, e.2.without name)) := by
    cases s.properties <;> rfl
  have hleading : (s.prefixItems.map fun _ => (s.prefixItems.getD []).map (without name)) =
      s.prefixItems.map (·.map (without name)) := by
    cases s.prefixItems <;> rfl
  rw [without, fold_eq, ← without, Parts.drop, Parts.map, parts, hproperties, hleading,
    List.filter_map]
  rfl

theorem ownDefinitions_without (name : String) (s : Schema) :
    (s.without name).ownDefinitions = definitionsWithout name s.ownDefinitions := by
  rw [without_eq]
  rfl

theorem parts_without {α : Type} (f : Schema → α) (name : String) (s : Schema) :
    (s.without name).parts.map f = (s.parts.map fun c => f (c.without name)).drop name := by
  have hproperties : ((s.properties.map (·.map fun e => (e.1, e.2.without name))).getD []).map
      (fun e => (e.1, f e.2)) = (s.properties.getD []).map fun e => (e.1, f (e.2.without name)) := by
    cases s.properties <;> simp
  have hadditional : (s.additional.map (mapAdditional (without name))).map (mapAdditional f) =
      s.additional.map (mapAdditional fun c => f (c.without name)) := by
    rcases s.additional with _ | (_ | _) <;> rfl
  have hleading : ((s.prefixItems.map (·.map (without name))).getD []).map f =
      (s.prefixItems.getD []).map fun c => f (c.without name) := by
    cases s.prefixItems <;> simp
  have hbranches : ∀ branches : Option (List Schema),
      (branches.map (·.map (without name))).map (·.map f) =
        branches.map (·.map fun c => f (c.without name)) := by
    intro branches
    cases branches <;> simp
  rw [without_eq]
  simp only [Parts.drop, Parts.map, parts, hproperties, hadditional, hleading, hbranches,
    Option.map_map, Option.getD_some, Function.comp_def, definitionsWithout, List.map_map,
    List.filter_map]
  rfl

theorem map_parts_congr {α : Type} {f g : Schema → α} (h : ∀ e ∈ s.children, f e.2 = g e.2) :
    s.parts.map f = s.parts.map g := by
  have hlist : ∀ {list : List Schema} {placed : Nat → PlaceStep},
      (∀ e ∈ list.zipIdx, (placed e.2, e.1) ∈ s.children) → list.map f = list.map g := by
    intro list placed hmem
    refine List.map_congr_left fun c hc => ?_
    obtain ⟨i, hi⟩ := exists_mem_zipIdx hc
    exact h _ (hmem _ hi)
  have hproperties := List.map_congr_left fun e he =>
    congrArg (Prod.mk e.1) (h _ (property_mem_children he))
  have hdefinitions := List.map_congr_left fun e he =>
    congrArg (Prod.mk e.1) (h _ (definition_mem_children he))
  have hadditional : s.additional.map (mapAdditional f) = s.additional.map (mapAdditional g) := by
    rcases hmore : s.additional with _ | (_ | c)
    · rfl
    · rfl
    · rw [Option.map_some, mapAdditional, h _ (additional_mem_children hmore)]
      rfl
  have hitems : s.items.map f = s.items.map g :=
    Option.map_congr fun c hc => h _ (items_mem_children hc)
  have hone : s.oneOf.map (·.map f) = s.oneOf.map (·.map g) :=
    Option.map_congr fun branches hb => hlist fun e he => oneOf_mem_children hb he
  have hany : s.anyOf.map (·.map f) = s.anyOf.map (·.map g) :=
    Option.map_congr fun branches hb => hlist fun e he => anyOf_mem_children hb he
  simp only [Parts.map, Parts.mk.injEq]
  exact ⟨hproperties, hadditional, hitems, hlist fun e he => leading_mem_children he, hone, hany,
    hdefinitions⟩

theorem reference_without (name : String) (s : Schema) :
    (s.without name).reference = s.reference := by
  rw [without_eq]

theorem avoids_without (name : String) (s : Schema) :
    (s.without name).avoids name = s.avoids name := by
  induction s using Schema.induction with
  | h s ih =>
    have hdrop : ((s.parts.map (avoids name)).drop name).drop name =
        (s.parts.map (avoids name)).drop name := by
      simp [Parts.drop]
    rw [avoids, fold_eq, fold_eq, ← avoids, parts_without, map_parts_congr ih, hdrop,
      reference_without]

/-- The fragment without its own definition of the given name. -/
def dropOwn (name : String) (s : Schema) : Schema :=
  { s with definitions := some (s.ownDefinitions.filter fun e => e.1 != name) }

theorem parts_dropOwn {α : Type} (f : Schema → α) (name : String) (s : Schema) :
    (s.dropOwn name).parts.map f = (s.parts.map f).drop name := by
  simp only [Parts.drop, Parts.map, parts, dropOwn, Option.getD_some, List.filter_map]
  rfl

theorem mem_children_dropOwn {e : PlaceStep × Schema} (he : e ∈ s.children)
    (hne : e.1 ≠ .definition name) : e ∈ (s.dropOwn name).children := by
  rw [children, List.mem_append] at he ⊢
  refine he.imp_right fun he => ?_
  obtain ⟨entry, hentry, rfl⟩ := List.mem_map.mp he
  refine List.mem_map.mpr ⟨entry, List.mem_filter.mpr ⟨hentry, ?_⟩, rfl⟩
  simpa using hne

theorem avoids_child (h : s.avoids name = true) {e : PlaceStep × Schema} (he : e ∈ s.children)
    (hne : e.1 ≠ .definition name) : e.2.avoids name = true := by
  rw [avoids, fold_eq, ← avoids, ← parts_dropOwn, all_parts_map, Bool.and_eq_true,
    List.all_eq_true] at h
  exact h.2 e (mem_children_dropOwn he hne)

theorem avoids_reference (h : s.avoids name = true) {text other : String}
    (htext : s.reference = some text) (hother : definitionName? text = some other) :
    other ≠ name := by
  rw [avoids, fold_eq, htext, Option.bind_some, hother, Bool.and_eq_true, decide_eq_true_eq] at h
  exact fun heq => h.1 (congrArg some heq)

end Schema

/-! ## What decides about a fragment -/

/-- What decides, with the branches of a union changed. -/
def Criterion.map (f : Schema → Schema) : Criterion → Criterion
  | .union placed branches => .union placed (branches.map f)
  | .reference text => .reference text
  | .constant value => .constant value
  | .enumeration members => .enumeration members
  | .types names => .types names
  | .anything => .anything

namespace Schema

theorem clashes_without (name : String) (t : Schema) : (t.without name).clashes = t.clashes := by
  rw [without_eq, clashes, clashes, Option.isSome_map, Option.isSome_map]

theorem criterion_without (name : String) (t : Schema) :
    (t.without name).criterion = t.criterion.map (without name) := by
  obtain ⟨types, properties, required, additional, items, prefixItems, minItems, maxItems,
    minLength, maxLength, format, enumeration, constant, oneOf, anyOf, definitions, reference,
    description⟩ := t
  rw [without_eq]
  cases reference with
  | some text => rfl
  | none =>
    cases oneOf with
    | some branches => rfl
    | none =>
      cases anyOf with
      | some branches => rfl
      | none =>
        cases constant with
        | some value => rfl
        | none =>
          cases enumeration with
          | some values => rfl
          | none => cases types <;> rfl

theorem declared_without (name : String) (t : Schema) :
    (t.without name).declared = t.declared.map fun e => (e.1, e.2.without name) := by
  rw [without_eq, declared, declared]
  cases t.properties <;> rfl

theorem contains_declared_without (name key : String) (t : Schema) :
    (t.without name).declared.contains key = t.declared.contains key := by
  rw [declared_without, Assoc.contains, Assoc.get?_map fun _ => without name, Option.isSome_map]
  rfl

theorem isRequired_without (name key : String) (t : Schema) :
    (t.without name).isRequired key = t.isRequired key := by
  rw [without_eq]
  rfl

end Schema

/-! ## Scopes -/

/-- The definition without definitions of the given name inside it. -/
def Definition.without (name : String) (definition : Definition) : Definition :=
  ⟨definition.place, definition.schema.without name⟩

@[simp] theorem Definition.place_without (name : String) (definition : Definition) :
    (definition.without name).place = definition.place := rfl

namespace Scope

variable {name : String} {scope : Scope} {place : Place} {t : Schema}

/-- The scope without the definition of the given name, and the others without those in them. -/
def without (name : String) (scope : Scope) : Scope :=
  (scope.filter fun e => e.1 != name).map fun e => (e.1, e.2.without name)

theorem get?_without {other : String} (h : other ≠ name) (scope : Scope) :
    (scope.without name).get? other = (scope.get? other).map (Definition.without name) := by
  rw [without, Assoc.get?_map fun _ => Definition.without name,
    Assoc.get?_filter (p := (· != name)) (by simpa using h)]

theorem layer_without (name : String) (outer inner : Scope) :
    without name (layer outer inner) = layer (outer.without name) (inner.without name) := by
  rw [without, layer, Assoc.filter_update (· != name), Assoc.map_update]
  rfl

theorem ofFragment_without (name : String) (place : Place) (t : Schema) :
    (ofFragment place t).without name = ofFragment place (t.without name) := by
  rw [ofFragment, ofFragment, Schema.ownDefinitions_without, definitionsWithout, without,
    List.filter_map, List.map_map, List.map_map]
  rfl

theorem ofExternal_without (name : String) (external : Assoc Schema) :
    (ofExternal external).without name = ofExternal (definitionsWithout name external) := by
  rw [ofExternal, ofExternal, definitionsWithout, without, List.filter_map, List.map_map,
    List.map_map]
  rfl

theorem entered_eq_layer (place : Place) (t : Schema) (scope : Scope) :
    scope.entered place t = layer scope (ofFragment place t) := by
  unfold entered
  split_ifs with hempty
  · rw [ofFragment, List.isEmpty_iff.mp hempty, List.map_nil, layer_nil]
  · rfl

theorem entered_without (name : String) (place : Place) (t : Schema) (scope : Scope) :
    (scope.entered place t).without name = (scope.without name).entered place (t.without name) := by
  rw [entered_eq_layer, entered_eq_layer, layer_without, ofFragment_without]

theorem mem_definitionKeys_without {key : DefinitionKey} (h : key.1 ≠ name) :
    key ∈ (scope.without name).definitionKeys ↔ key ∈ scope.definitionKeys := by
  rw [mem_definitionKeys, mem_definitionKeys]
  constructor
  · rintro ⟨e', he', rfl⟩
    obtain ⟨e, he, rfl⟩ := List.mem_map.mp he'
    exact ⟨e, List.mem_of_mem_filter he, rfl⟩
  · rintro ⟨e, he, rfl⟩
    exact ⟨_, List.mem_map_of_mem (List.mem_filter.mpr ⟨he, by simpa using h⟩), rfl⟩

theorem agree_self (scope : Scope) : agree scope scope = true := by
  induction scope with
  | nil => rfl
  | cons e scope ih => simp [agree, ih]

/-- Scopes are compared by names and places. -/
theorem agree_map_without (name : String) (a b : Scope) :
    agree (a.map fun e => (e.1, e.2.without name)) (b.map fun e => (e.1, e.2.without name)) =
      agree a b := by
  induction a generalizing b with
  | nil => cases b <;> rfl
  | cons e a ih =>
    cases b with
    | nil => rfl
    | cons e' b => simp only [List.map_cons, agree, Definition.place_without, ih]

theorem nodup_keys_without (h : scope.keys.Nodup) : (scope.without name).keys.Nodup := by
  rw [without, Assoc.keys_map]
  exact h.sublist (List.filter_sublist.map Prod.fst)

/-- What is visible inside a definition when a name is left out. -/
theorem visible_without {s : Schema} {external : Assoc Schema} {r r' : ScopeRegistry}
    (hd : DistinctNames s external) (hr : r.Sound s external) (h : Genuine s external r scope)
    {key : DefinitionKey} (hsame : r'.find? key = (r.find? key).map (without name)) :
    r'.visible (scope.without name) key = (r.visible scope key).without name := by
  unfold ScopeRegistry.visible
  rw [hsame]
  cases hfind : r.find? key with
  | none => simp only [Option.map_none, Option.getD_none, agree_self, if_true]
  | some declared =>
    have hdeclared := hr.genuine hfind
    simp only [Option.map_some, Option.getD_some]
    by_cases hagree : agree scope declared = true
    · rw [eq_of_agree hd h.fragment hdeclared.fragment hagree]
      simp only [agree_self, if_true]
    · -- The scopes may still agree when the name is left out.
      rw [if_neg hagree, layer_without]
      split_ifs with hagree'
      · rw [without, without, agree_map_without] at hagree'
        have heq := eq_of_agree hd (fun e he => h.fragment e (List.mem_of_mem_filter he))
          (fun e he => hdeclared.fragment e (List.mem_of_mem_filter he)) hagree'
        have heq' : scope.without name = declared.without name := by rw [without, without, heq]
        rw [heq', layer, Assoc.update_self (nodup_keys_without hdeclared.nodup)]
      · rfl

/-- No definition in scope that has another name refers to the given one. -/
def Avoids (name : String) (scope : Scope) : Prop :=
  ∀ e ∈ scope, e.1 ≠ name → e.2.schema.avoids name = true

theorem avoids_entered (h : scope.Avoids name) (ht : t.avoids name = true) (place : Place) :
    (scope.entered place t).Avoids name := by
  rw [entered_eq_layer]
  refine forall_layer h (List.forall_mem_map.mpr fun e he hne => ?_)
  exact Schema.avoids_child ht (Schema.definition_mem_children he) fun heq => hne (by cases heq; rfl)

end Scope

/-! ## Registries -/

namespace ScopeRegistry

variable {s t : Schema} {external : Assoc Schema} {name : String} {r₀ r r' : ScopeRegistry}
  {scope : Scope} {place : Place} {env : Env}

/-- Entering a fragment records the scope inside it for the definitions there, if that has not been
done. -/
theorem find?_entered
    (h : ∀ e ∈ scope, ∃ declared, r.find? (e.1, e.2.place) = some declared) (place : Place)
    (t : Schema) (key : DefinitionKey) :
    (r.entered place t scope).find? key = (r.find? key).or
      (if key ∈ (scope.entered place t).definitionKeys then some (scope.entered place t)
        else none) := by
  unfold entered Scope.entered
  split_ifs with hempty hmem
  · obtain ⟨e, he, rfl⟩ := Scope.mem_definitionKeys.mp hmem
    obtain ⟨declared, hdeclared⟩ := h e he
    rw [hdeclared, Option.some_or]
  · rw [Option.or_none]
  · rw [find?_declare, if_pos ‹_›]
  · rw [find?_declare, if_neg ‹_›]

/-- What `r'` has recorded under other names than the given one is what `r` has, without the
definitions of that name. -/
def SameWithout (name : String) (r r' : ScopeRegistry) : Prop :=
  ∀ key : DefinitionKey, key.1 ≠ name → r'.find? key = (r.find? key).map (Scope.without name)

theorem SameWithout.entered (h : SameWithout name r r')
    (hrecorded : ∀ e ∈ scope, ∃ declared, r.find? (e.1, e.2.place) = some declared) (place : Place)
    (t : Schema) :
    SameWithout name (r.entered place t scope)
      (r'.entered place (t.without name) (scope.without name)) := by
  intro key hkey
  have hrecorded' : ∀ e ∈ scope.without name,
      ∃ declared, r'.find? (e.1, e.2.place) = some declared := by
    refine List.forall_mem_map.mpr fun e he => ?_
    obtain ⟨he, hne⟩ := List.mem_filter.mp he
    obtain ⟨declared, hdeclared⟩ := hrecorded e he
    exact ⟨_, (h (e.1, e.2.place) (by simpa using hne)).trans (congrArg _ hdeclared)⟩
  rw [find?_entered hrecorded', find?_entered hrecorded, h key hkey, ← Scope.entered_without]
  simp only [Scope.mem_definitionKeys_without hkey]
  cases r.find? key with
  | some declared => rfl
  | none => split_ifs <;> rfl

/-- What two runs have recorded, one with and one without the definitions of the given name. The
former has recorded no less than `r₀`. -/
structure Parallel (s : Schema) (external : Assoc Schema) (name : String)
    (r₀ r r' : ScopeRegistry) : Prop where
  grows : r₀.Extends r
  sound : r.Sound s external
  avoids : ∀ declared ∈ r.entries, Scope.Avoids name declared.2
  same : SameWithout name r r'

theorem Parallel.mono {r₁ : ScopeRegistry} (h : Parallel s external name r₁ r r')
    (hr : r₀.Extends r₁) : Parallel s external name r₀ r r' :=
  ⟨hr.trans h.grows, h.sound, h.avoids, h.same⟩

theorem Parallel.entered (hd : DistinctNames s external) (h : Parallel s external name r₀ r r')
    (hsees : Scope.Sees s external r₀ scope env) (havoids : scope.Avoids name)
    (hf : Fragment s external place env t) (ht : t.avoids name = true) :
    r₀.Extends (r.entered place t scope) ∧
      Scope.Sees s external (r.entered place t scope) (scope.entered place t) (t.inner env) ∧
      Parallel s external name (r.entered place t scope) (r.entered place t scope)
        (r'.entered place (t.without name) (scope.without name)) := by
  have hsees' := hsees.mono h.grows
  obtain ⟨hsound, hinner, hextends⟩ := Scope.sound_entered hd h.sound hsees' hf
  refine ⟨h.grows.trans hextends, hinner, .refl _, hsound, ?_,
    h.same.entered hsees'.genuine.recorded place t⟩
  have hentered := Scope.avoids_entered havoids ht place
  unfold ScopeRegistry.entered
  unfold Scope.entered at hentered
  split_ifs at hentered ⊢ with hempty
  · exact h.avoids
  · exact forall_declare h.avoids hentered

/-- What a reference to a definition of another name leads to. -/
theorem Parallel.referred (hd : DistinctNames s external) (h : Parallel s external name r₀ r r')
    (hsees : Scope.Sees s external r₀ scope env) (havoids : scope.Avoids name) {other : String}
    {definition : Definition} (hget : scope.get? other = some definition) (hne : other ≠ name) :
    definition.schema.avoids name = true ∧
      (r.visible scope (other, definition.place)).Avoids name ∧
      r'.visible (scope.without name) (other, definition.place) =
        (r.visible scope (other, definition.place)).without name ∧
      ∃ env', Fragment s external definition.place env' definition.schema ∧
        Scope.Sees s external r (r.visible scope (other, definition.place)) env' := by
  have hmem := Assoc.mem_of_get? hget
  have hgenuine := hsees.genuine.mono h.grows
  obtain ⟨env', hf⟩ := hgenuine.fragment _ hmem
  exact ⟨havoids _ hmem hne, Scope.forall_visible h.avoids havoids _,
    Scope.visible_without hd h.sound hgenuine (h.same _ hne),
    env', hf, Scope.sees_visible hd h.sound hgenuine hget hf⟩

/-- What two runs begin with. -/
theorem parallel_external (hd : DistinctNames s external)
    (havoids : ∀ e ∈ external, e.1 ≠ name → e.2.avoids name = true) :
    let r : ScopeRegistry := declare {} (Scope.ofExternal external)
    Parallel s external name r r
      (declare {} (Scope.ofExternal (definitionsWithout name external))) := by
  have hscope : (Scope.ofExternal external).Avoids name := List.forall_mem_map.mpr havoids
  refine ⟨.refl _, (Scope.sound_external hd).1,
    forall_declare (fun _ h => absurd h List.not_mem_nil) hscope, fun key hkey => ?_⟩
  rw [← Scope.ofExternal_without, find?_declare, find?_declare]
  simp only [Scope.mem_definitionKeys_without hkey]
  split_ifs <;> rfl

end ScopeRegistry

end SchemaGrammar
