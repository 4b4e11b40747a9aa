import SchemaGrammar.Proofs.LoweringByParts

/-!
# Runs of lowering

While a definition is lowered its shape has no target yet. So a run is described with the shapes
that still wait for theirs: a definition that has a shape is represented by the target of that
shape, or the shape waits. A run adds shapes, definitions and scopes, and leaves what was there as
it is, the waiting shapes too; what represents a fragment then goes on to do so.

## Main definitions

* `Lowering.Sound`: what holds of the state of a run.
* `Lowering.Grows`: how a run changes its state.
* `Lowering.Lowers`: what a run does if it succeeds.

## Main results

* `lower_represents`: what lowering leaves in its table.
-/

namespace SchemaGrammar

open Json (Value)

namespace Lowering

section

variable (s : Schema) (external : Assoc Schema)

/-- The shapes that stand for definitions. -/
def standing (st : Lowering) : Standing := fun name c id =>
  ∃ place, ((name, place), id) ∈ st.references ∧ Fragment s external place c.env c.schema

/-- The shape at `id` represents a fragment. -/
def Stands (st : Lowering) : Env → Schema → ShapeId → Prop :=
  Represents st.shapes (standing s external st)

/-- A state in which the shapes of `waiting` have no target yet: every other shape that stands for
a definition has a target that represents it. A definition of the document has one shape at most,
which refers to it by name. -/
structure Sound (waiting : List ShapeId) (st : Lowering) : Prop where
  registry : st.registry.Sound s external
  distinct : (st.references.map Prod.fst).Nodup
  known : ∀ {key id}, (key, id) ∈ st.references → key ∈ documentKeys s external
  unique : ∀ {key key' id}, (key, id) ∈ st.references → (key', id) ∈ st.references → key = key'
  waits : ∀ id ∈ waiting, ∃ key, (key, id) ∈ st.references ∧
    st.shapes.get? id = some (.reference key.1 none)
  settled : ∀ {key id}, (key, id) ∈ st.references → id ∉ waiting →
    ∃ target, st.shapes.get? id = some (.reference key.1 (some target)) ∧
      ∀ {env t}, Fragment s external key.2 env t → Stands s external st env t target

end

/-- What was there stays. -/
structure Grows (st st' : Lowering) : Prop where
  shapes : ∀ id shape, st.shapes.get? id = some shape → st'.shapes.get? id = some shape
  references : st.references ⊆ st'.references
  registry : st.registry.Extends st'.registry

section

variable {s t : Schema} {external : Assoc Schema} {waiting : List ShapeId}
  {st st' st'' : Lowering} {α β γ : Type} {env : Env} {id : ShapeId}

theorem Grows.refl (st : Lowering) : Grows st st :=
  ⟨fun _ _ h => h, List.Subset.refl _, .refl _⟩

theorem Grows.trans (h : Grows st st') (h' : Grows st' st'') : Grows st st'' :=
  ⟨fun id shape hget => h'.shapes id shape (h.shapes id shape hget),
    List.Subset.trans h.references h'.references, h.registry.trans h'.registry⟩

theorem Grows.keeps (h : Grows st st') : st.shapes.Keeps st'.shapes :=
  fun id shape hget _ => h.shapes id shape hget

theorem standing_mono (h : st.references ⊆ st'.references) {name : String} {c : Closure}
    (hs : standing s external st name c id) : standing s external st' name c id := by
  obtain ⟨place, hmem, hf⟩ := hs
  exact ⟨place, h hmem, hf⟩

theorem Stands.mono (hs : Stands s external st env t id) (h : Grows st st') :
    Stands s external st' env t id :=
  Represents.mono h.keeps (fun _ _ _ => standing_mono h.references) hs

/-- What stands for a definition is a reference to it. -/
theorem Sound.present (hst : Sound s external waiting st) {key : DefinitionKey}
    (hmem : (key, id) ∈ st.references) :
    ∃ target, st.shapes.get? id = some (.reference key.1 target) := by
  by_cases hw : id ∈ waiting
  · obtain ⟨key', hmem', hget⟩ := hst.waits id hw
    exact ⟨none, hst.unique hmem' hmem ▸ hget⟩
  · obtain ⟨target, hget, -⟩ := hst.settled hmem hw
    exact ⟨some target, hget⟩

/-- A state that has grown without a new definition is sound. -/
theorem Sound.grow (hst : Sound s external waiting st) (h : Grows st st')
    (hreferences : st'.references = st.references) (hregistry : st'.registry.Sound s external) :
    Sound s external waiting st' := by
  refine ⟨hregistry, hreferences ▸ hst.distinct, fun hm => ?_, fun hm hm' => ?_, fun id hw => ?_,
    fun hm hw => ?_⟩
  · rw [hreferences] at hm
    exact hst.known hm
  · rw [hreferences] at hm hm'
    exact hst.unique hm hm'
  · obtain ⟨key, hm, hget⟩ := hst.waits id hw
    exact ⟨key, h.references hm, h.shapes _ _ hget⟩
  · rw [hreferences] at hm
    obtain ⟨target, hget, hstands⟩ := hst.settled hm hw
    exact ⟨target, h.shapes _ _ hget, fun hf => (hstands hf).mono h⟩

theorem grows_push (st : Lowering) (shape : Shape) :
    Grows st { st with shapes := (st.shapes.push shape).2 } := by
  refine ⟨fun id found hget => ?_, List.Subset.refl _, .refl _⟩
  have hlt : id < st.shapes.size := by
    rw [Shapes.get?] at hget
    exact (Array.getElem?_eq_some_iff.mp hget).1
  rw [Shapes.get?_push_of_lt hlt]
  exact hget

/-- The bounds of a list shape count as those of the fragment do. -/
theorem within_widened (hbounds : ∀ least ∈ t.minItems, ∀ most ∈ t.maxItems, least ≤ most)
    (count : Nat) :
    Checking.within (max (t.minItems.getD 0) (t.prefixItems.getD []).length)
      (t.maxItems.map (max · (t.prefixItems.getD []).length)) count = t.admitsCount count := by
  unfold Schema.admitsCount
  cases hmax : t.maxItems with
  | none => rfl
  | some most =>
    have hle : t.minItems.getD 0 ≤ most := by
      cases hmin : t.minItems with
      | none => exact Nat.zero_le most
      | some least => exact hbounds least hmin most hmax
    simp only [Option.map_some]
    rw [← max_assoc, max_eq_left hle]

/-! ## References -/

theorem mem_of_lookup {entries : List (DefinitionKey × ShapeId)} {key : DefinitionKey}
    (h : entries.lookup key = some id) : (key, id) ∈ entries := by
  induction entries with
  | nil => cases h
  | cons e entries ih =>
    obtain ⟨known, found⟩ := e
    rw [List.lookup_cons] at h
    split at h
    · next heq =>
      cases h
      rw [beq_iff_eq.mp heq]
      exact List.mem_cons_self
    · exact List.mem_cons_of_mem _ (ih h)

theorem notMem_of_lookup {entries : List (DefinitionKey × ShapeId)} {key : DefinitionKey}
    (h : entries.lookup key = none) : key ∉ entries.map Prod.fst := by
  intro hmem
  obtain ⟨e, he, rfl⟩ := List.mem_map.mp hmem
  exact absurd (List.lookup_eq_none_iff.mp h e he) (by simp)

theorem get?_setTarget_self {shapes : Shapes} {name : String}
    (h : shapes.get? id = some (.reference name none)) (target : ShapeId) :
    (shapes.setTarget id target).get? id = some (.reference name (some target)) := by
  have hlt := (Array.getElem?_eq_some_iff.mp h).1
  unfold Shapes.setTarget
  rw [h]
  simp [Shapes.get?, hlt]

theorem get?_setTarget_of_ne {shapes : Shapes} {other : ShapeId} (h : other ≠ id)
    (target : ShapeId) : (shapes.setTarget id target).get? other = shapes.get? other := by
  unfold Shapes.setTarget
  split
  · simp [Shapes.get?, h.symm]
  · rfl

/-- The state when the shape at `id` gets its target. -/
theorem Sound.setTarget {key : DefinitionKey} {target : ShapeId}
    (hd : DistinctNames s external) (hst : Sound s external (id :: waiting) st)
    (hfresh : id ∉ waiting) (hmem : (key, id) ∈ st.references)
    (hget : st.shapes.get? id = some (.reference key.1 none))
    (hf : Fragment s external key.2 env t) (htarget : Stands s external st env t target) :
    Sound s external waiting { st with shapes := st.shapes.setTarget id target } := by
  have hkeeps : st.shapes.Keeps (st.shapes.setTarget id target) := by
    intro other shape hother hopen
    by_cases heq : other = id
    · rw [heq, hget] at hother
      exact absurd (Option.some.inj hother).symm (hopen key.1)
    · rw [get?_setTarget_of_ne heq]
      exact hother
  have hstands : ∀ {env t other}, Stands s external st env t other →
      Stands s external { st with shapes := st.shapes.setTarget id target } env t other :=
    fun hs => Represents.mono hkeeps (fun _ _ _ h => h) hs
  refine ⟨hst.registry, hst.distinct, hst.known, hst.unique, fun other hw => ?_,
    fun {key' other} hm hw => ?_⟩
  · have hne : other ≠ id := fun heq => hfresh (heq ▸ hw)
    obtain ⟨key', hm, hother⟩ := hst.waits other (List.mem_cons_of_mem _ hw)
    exact ⟨key', hm, (get?_setTarget_of_ne hne target).trans hother⟩
  · by_cases heq : other = id
    · subst heq
      cases hst.unique hm hmem
      refine ⟨target, get?_setTarget_self hget target, fun hf' => hstands ?_⟩
      obtain ⟨rfl, rfl⟩ := hf'.unique hd hf
      exact htarget
    · have hwaits : other ∉ id :: waiting := fun h => (List.mem_cons.mp h).elim heq hw
      obtain ⟨target', hother, hs⟩ := hst.settled hm hwaits
      exact ⟨target', (get?_setTarget_of_ne heq target).trans hother,
        fun hf' => hstands (hs hf')⟩

/-- The state in which a definition has a shape that waits for its target. -/
def define (st : Lowering) (key : DefinitionKey) (name : String) : Lowering :=
  { st with
    shapes := (st.shapes.push (.reference name none)).2
    references := (key, st.shapes.size) :: st.references }

theorem lt_size_of_get? {shapes : Shapes} {shape : Shape} (h : shapes.get? id = some shape) :
    id < shapes.size :=
  (Array.getElem?_eq_some_iff.mp h).1

theorem grows_define (st : Lowering) (key : DefinitionKey) (name : String) :
    Grows st (st.define key name) :=
  ⟨(grows_push st _).shapes, List.subset_cons_self _ _, .refl _⟩

theorem sound_define (hst : Sound s external waiting st) {name : String} {home : Place}
    (hkey : (name, home) ∈ documentKeys s external)
    (hnew : st.references.lookup (name, home) = none) :
    Sound s external (st.shapes.size :: waiting) (st.define (name, home) name) := by
  have hg := grows_define st (name, home) name
  have hold : ∀ {key'}, (key', st.shapes.size) ∉ st.references := by
    intro key' hm
    obtain ⟨target, hget⟩ := hst.present hm
    exact absurd (lt_size_of_get? hget) (Nat.lt_irrefl _)
  refine ⟨hst.registry, List.nodup_cons.mpr ⟨notMem_of_lookup hnew, hst.distinct⟩,
    fun hm => ?_, fun hm hm' => ?_, fun id hw => ?_, fun hm hw => ?_⟩
  · rcases List.mem_cons.mp hm with heq | hm
    · cases heq
      exact hkey
    · exact hst.known hm
  · rcases List.mem_cons.mp hm with heq | hm
    · cases heq
      rcases List.mem_cons.mp hm' with heq | hm'
      · cases heq
        rfl
      · exact absurd hm' hold
    · rcases List.mem_cons.mp hm' with heq | hm'
      · cases heq
        exact absurd hm hold
      · exact hst.unique hm hm'
  · rcases List.mem_cons.mp hw with rfl | hw
    · exact ⟨_, List.mem_cons_self, Shapes.get?_push_self st.shapes _⟩
    · obtain ⟨key, hm, hget⟩ := hst.waits id hw
      exact ⟨key, hg.references hm, hg.shapes _ _ hget⟩
  · rcases List.mem_cons.mp hm with heq | hm
    · cases heq
      exact absurd List.mem_cons_self hw
    · obtain ⟨target, hget, hs⟩ :=
        hst.settled hm fun h => hw (List.mem_cons_of_mem _ h)
      exact ⟨target, hg.shapes _ _ hget, fun hf => (hs hf).mono hg⟩

/-- The next shape does not wait yet. -/
theorem Sound.size_notMem (hst : Sound s external waiting st) : st.shapes.size ∉ waiting := by
  intro hw
  obtain ⟨key, -, hget⟩ := hst.waits _ hw
  exact absurd (lt_size_of_get? hget) (Nat.lt_irrefl _)

section

variable {follow : String → Definition → Layout → Scope → LowerM ShapeId} {layout : Layout}
  {scope : Scope} {text name : String} {definition : Definition}

theorem reference_known (hname : definitionName? text = some name)
    (hget : scope.get? name = some definition)
    (hknown : st.references.lookup (name, definition.place) = some id) :
    (reference follow text layout scope).run st = (.ok id, st) := by
  rw [reference_eq_referTo, Scope.resolve?_of_get? hname hget, referTo, run_get_bind, hknown]
  rfl

/-- A reference to a definition that has no shape yet. -/
theorem reference_new (hname : definitionName? text = some name)
    (hget : scope.get? name = some definition)
    (hnew : st.references.lookup (name, definition.place) = none) :
    (reference follow text layout scope).run st =
      (do
        let target ← follow name definition layout
          (st.registry.visible scope (name, definition.place))
        modify fun st' => { st' with shapes := st'.shapes.setTarget st.shapes.size target }
        if refersBack (← get).shapes st.shapes.size target then unsupported (.selfReference name)
        else return st.shapes.size : LowerM ShapeId).run
          (st.define (name, definition.place) name) := by
  rw [reference_eq_referTo, Scope.resolve?_of_get? hname hget, referTo, run_get_bind, hnew]
  rfl

section

variable {home : Place} {c : Closure} (hd : DistinctNames s external)
  (hst : Sound s external waiting st) (hhome : Fragment s external home c.env c.schema)

include hd hst hhome

/-- The state in which the body of a definition that has no shape yet is lowered. -/
theorem Sound.enter_definition (hsees : Scope.Sees s external st.registry scope env)
    (hget : scope.get? name = some ⟨home, c.schema⟩)
    (hnew : st.references.lookup (name, home) = none) :
    Sound s external (st.shapes.size :: waiting) (st.define (name, home) name) ∧
      Scope.Sees s external (st.define (name, home) name).registry
        (st.registry.visible scope (name, home)) c.env := by
  have hkey : (name, home) ∈ documentKeys s external :=
    hhome.mem_documentKeys (hsees.genuine.named _ (Assoc.mem_of_get? hget))
  exact ⟨sound_define hst hkey hnew,
    Scope.sees_visible hd hst.registry hsees.genuine hget hhome⟩

/-- The state after that, when the shape of the definition gets its target. -/
theorem Sound.leave_definition {target : ShapeId}
    (hst' : Sound s external (st.shapes.size :: waiting) st')
    (hg : Grows (st.define (name, home) name) st')
    (htarget : Stands s external st' c.env c.schema target) :
    ((name, home), st.shapes.size) ∈ st'.references ∧
      st'.shapes.get? st.shapes.size = some (.reference name none) ∧
      Sound s external waiting
        { st' with shapes := st'.shapes.setTarget st.shapes.size target } := by
  have hopen := hg.shapes _ _ (Shapes.get?_push_self st.shapes (.reference name none))
  have hmem : ((name, home), st.shapes.size) ∈ st'.references :=
    hg.references List.mem_cons_self
  exact ⟨hmem, hopen, hst'.setTarget hd hst.size_notMem hmem hopen hhome htarget⟩

end

end

/-- The state in which a run starts. -/
theorem sound_external (hd : DistinctNames s external) :
    Sound s external [] { registry := ScopeRegistry.declare {} (Scope.ofExternal external) } ∧
      Scope.Sees s external (ScopeRegistry.declare {} (Scope.ofExternal external))
        (Scope.ofExternal external) [external] := by
  obtain ⟨hregistry, hsees⟩ := Scope.sound_external hd
  exact ⟨⟨hregistry, List.nodup_nil, fun hm => absurd hm List.not_mem_nil,
    fun hm => absurd hm List.not_mem_nil, fun _ hw => absurd hw List.not_mem_nil,
    fun hm => absurd hm List.not_mem_nil⟩, hsees⟩

end

end Lowering

/-- What holds of a table of shapes and its root: the root represents the document, and what stands
for a definition has a target that represents it. -/
structure Lowered.Represents (lowered : Lowered) (s : Schema) (external : Assoc Schema)
    (standing : Standing) : Prop where
  root : SchemaGrammar.Represents lowered.shapes standing [external] s lowered.root
  settled : ∀ name c id, standing name c id → ∃ target,
    lowered.shapes.get? id = some (.reference name (some target)) ∧
      SchemaGrammar.Represents lowered.shapes standing c.env c.schema target

end SchemaGrammar
