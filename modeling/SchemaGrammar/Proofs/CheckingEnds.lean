import SchemaGrammar.Proofs.RunsInStep

/-!
# Checking ends and leaves its guard as it was

References do not make a fragment smaller and unions do not make a value smaller, so checking keeps
a guard: the definitions that it is inside of, each with the place of the value. No definition is
entered twice at one place, and all places in the guard are on the way to the value at hand. So the
guard is not longer than the number of definitions times the number of levels of the value, and that
is how many references in a row are followed; a larger bound changes nothing.

A check puts an entry on the guard when it enters a definition and takes it off when it comes back,
with success or without. The places of siblings are not on each other's way, so an entry that was
left behind could refuse a sibling wrongly; none is.

Nothing is asked of the document: the same holds where a schema has no grammar.

## Main definitions

* `Checking.documentWithin`: checking with some bound on references in a row.

## Main results

* `validate_ends`: checking ends, and every check leaves the guard as it was.
-/

namespace SchemaGrammar

open Json (Value)

namespace Checking

/-- Checks a value against a schema, through at most `jumps` references in a row. -/
def documentWithin (jumps : Nat) (s : Schema) (external : Assoc Schema) (value : Value) :
    CheckM Unit := do
  let scope := Scope.ofExternal external
  modify fun st => { st with registry := st.registry.declare scope }
  s.fold (step (follow jumps)) [] value [] scope

/-- One state with a known guard. -/
structure SameAt (P : ScopeRegistry → Prop) (active : List (DefinitionKey × Path))
    (st st' : Checking) : Prop where
  eq : st' = st
  active : st.active = active
  registry : P st.registry

section

variable {P : ScopeRegistry → Prop} {F : Failure → Prop} {active : List (DefinitionKey × Path)}
  {follow follow' : String → Definition → Value → Path → Scope → CheckM Unit} {text : String}
  {value : Value} {path : Path} {scope : Scope}

theorem reference_unknown
    (h : ∀ name, definitionName? text = some name → scope.get? name = none) :
    reference follow text value path scope = fail path (.unresolvedReference text) := by
  rw [reference_eq_referTo, Scope.resolve?_eq_none h, referTo]

/-- Coming back from a definition takes off the guard what entering put there. -/
theorem inStep_inside {key : DefinitionKey} {m m' : CheckM Unit}
    (h : InStep (SameAt P ((key, path) :: active)) F m m') :
    InStep (SameAt P active) F (inside key path m) (inside key path m') := by
  rintro _ st ⟨rfl, hactive, hP⟩
  have hst : SameAt P ((key, path) :: active) { st with active := (key, path) :: st.active }
      { st with active := (key, path) :: st.active } := ⟨rfl, by rw [hactive], hP⟩
  obtain ⟨⟨heq, hactive', hP'⟩, hsame, herrors⟩ := h _ _ hst
  rcases hrun : m.run { st with active := (key, path) :: st.active } with ⟨outcome, st₁⟩
  rcases hrun' : m'.run { st with active := (key, path) :: st.active } with ⟨outcome', st₁'⟩
  rw [hrun] at hactive' hP' herrors
  rw [hrun, hrun'] at heq hsame
  cases heq
  cases hsame
  rw [run_inside hrun, run_inside hrun']
  refine ⟨⟨rfl, ?_, hP'⟩, rfl, herrors⟩
  change st₁.active.erase (key, path) = active
  rw [hactive']
  exact List.erase_cons_head _ _

/-- Two checks against a definition are in step if those against its body are. -/
theorem inStep_reference (herror : ∀ mismatch, (∀ name, mismatch ≠ .exhausted name) →
      F ⟨path, mismatch⟩)
    (hfollow : ∀ {name definition r}, scope.get? name = some definition →
      ((name, definition.place), path) ∉ active → P r →
      InStep (SameAt P (((name, definition.place), path) :: active)) F
        (follow name definition value path (r.visible scope (name, definition.place)))
        (follow' name definition value path (r.visible scope (name, definition.place)))) :
    InStep (SameAt P active) F (reference follow text value path scope)
      (reference follow' text value path scope) := by
  rcases scope.found_or_unknown text with ⟨name, definition, hname, hget⟩ | hnone
  · rintro _ st ⟨rfl, hactive, hP⟩
    rw [reference_eq hname hget, reference_eq hname hget]
    split_ifs with hcontains
    · exact inStep_throw (herror _ fun _ => by simp) _ _ ⟨rfl, hactive, hP⟩
    · have hnew : ((name, definition.place), path) ∉ active := by
        rw [← hactive]
        simpa using hcontains
      exact inStep_inside (hfollow hget hnew hP) _ _ ⟨rfl, hactive, hP⟩
  · rw [reference_unknown hnone, reference_unknown hnone]
    exact inStep_throw (herror _ fun _ => by simp)

end

/-! ## The guard is as it was -/

section

variable {F : Failure → Prop} {At : Value → Path → Prop}

theorem KeepsValues.keepsStep_guard (hk : KeepsValues F At)
    (active : List (DefinitionKey × Path)) :
    KeepsStep (SameAt (fun _ => True) active) F (fun _ _ => True) (fun _ => True) At where
  toKeepsValues := hk
  child _ _ _ := trivial
  fine _ _ := trivial
  enter h _ _ := ⟨by rw [h.eq], h.active, trivial⟩

/-- A check is in step with itself, so it leaves the guard as it was. What values and mismatches
are like may be known besides. -/
theorem inStep_fold_guard (hk : KeepsValues F At)
    (hstop : ∀ {value path name}, At value path → F ⟨path, .exhausted name⟩)
    (active : List (DefinitionKey × Path)) (jumps : Nat) (t : Schema) (place : Place)
    (scope : Scope) {value : Value} {path : Path} (hat : At value path) :
    InStep (SameAt (fun _ => True) active) F (t.fold (step (follow jumps)) place value path scope)
      (t.fold (step (follow jumps)) place value path scope) := by
  induction jumps generalizing active t place scope value path with
  | zero =>
    exact inStep_fold (hk.keepsStep_guard active)
      (fun _ _ _ _ _ hat => inStep_reference (fun _ => hk.error hat)
        fun _ _ _ => inStep_throw (hstop hat))
      trivial trivial hat
  | succ jumps ih =>
    exact inStep_fold (hk.keepsStep_guard active)
      (fun _ _ _ _ _ hat => inStep_reference (fun _ => hk.error hat) fun _ _ _ => ih _ _ _ _ hat)
      trivial trivial hat

/-- Every check leaves the guard as it was. -/
theorem active_fold (jumps : Nat) (t : Schema) (place : Place) (value : Value) (path : Path)
    (scope : Scope) (st : Checking) :
    ((t.fold (step (follow jumps)) place value path scope).run st).2.active = st.active := by
  have h := @inStep_fold_guard _ _ keepsValues_any (fun _ => trivial) st.active jumps t place scope
    value path trivial
  exact (h st st ⟨rfl, rfl, trivial⟩).states.active

end

/-! ## The bound on references is not met -/

section

variable {s : Schema} {external : Assoc Schema} {bound : Nat}
  {active : List (DefinitionKey × Path)}

/-- A mismatch that is not about too many references in a row. -/
def IsProper (failure : Failure) : Prop := ∀ name, failure.mismatch ≠ .exhausted name

/-- A value that is not deeper than the bound leaves at its place, under the guard there. -/
structure Reaches (s : Schema) (external : Assoc Schema) (bound jumps : Nat)
    (active : List (DefinitionKey × Path)) (value : Value) (path : Path) : Prop where
  depth : path.length + value.depth ≤ bound
  guard : ActiveAt s external bound jumps active path

theorem Reaches.deeper {jumps : Nat} {value v : Value} {path : Path}
    (h : Reaches s external bound jumps active value path) (hlt : v.depth < value.depth)
    (step : PathStep) : Reaches s external bound jumps active v (step :: path) := by
  refine ⟨?_, h.guard.deeper step⟩
  have := h.depth
  rw [List.length_cons]
  omega

theorem keepsStep_ends (s : Schema) (external : Assoc Schema) (bound jumps : Nat)
    (active : List (DefinitionKey × Path)) :
    KeepsStep (SameAt (ScopeRegistry.Known s external) active) IsProper (InDocument s external)
      (Scope.Known s external) (Reaches s external bound jumps active) where
  error _ h := h
  child h _ he := h.child he
  item h hv := h.deeper (Value.depth_lt_of_mem_items (List.mem_of_getElem? hv)) _
  member h hm := h.deeper (Value.depth_lt_of_mem_members hm) _
  fine h hscope := hscope.entered h
  enter h hf hscope := ⟨by rw [h.eq], h.active, h.registry.entered hscope hf⟩

/-- With as many references left as the guard can still grow by, a larger bound changes nothing. -/
theorem inStep_follow_ends {jumps jumps' : Nat} (hle : jumps ≤ jumps') {text : String}
    {value : Value} {path : Path} {scope : Scope} (hscope : scope.Known s external)
    (h : Reaches s external bound jumps active value path) :
    InStep (SameAt (ScopeRegistry.Known s external) active) IsProper
      (reference (follow jumps) text value path scope)
      (reference (follow jumps') text value path scope) := by
  induction jumps generalizing jumps' active text value path scope with
  | zero =>
    refine inStep_reference (fun _ h => h) fun hget hnew _ => ?_
    obtain ⟨-, hkey⟩ := hscope _ (Assoc.mem_of_get? hget)
    have hpos := h.guard.jumps_pos hkey hnew (Nat.le_of_add_right_le h.depth)
    exact absurd hpos (Nat.lt_irrefl 0)
  | succ jumps ih =>
    obtain ⟨jumps', rfl⟩ : ∃ k, jumps' = k + 1 := Nat.exists_eq_add_one.mpr (by omega)
    refine inStep_reference (fun _ h => h) fun hget hnew hr => ?_
    obtain ⟨hf, hkey⟩ := hscope _ (Assoc.mem_of_get? hget)
    exact inStep_fold (keepsStep_ends s external bound jumps _)
      (fun text value path scope hscope h => ih (Nat.le_of_succ_le_succ hle) hscope h) hf
      (Scope.forall_visible hr hscope _) ⟨h.depth, h.guard.inside hkey hnew⟩

/-- Where the whole run starts. -/
theorem run_document (s : Schema) (external : Assoc Schema) (value : Value) :
    (document s external value).run {} =
      (s.fold (step (follow (jumps s external value))) [] value [] (Scope.ofExternal external)).run
        { registry := ScopeRegistry.declare {} (Scope.ofExternal external) } :=
  rfl

/-- The whole run, against any that may follow more references in a row. -/
theorem endInStep_documentWithin {value : Value} {jumps : Nat}
    (hle : Checking.jumps s external value ≤ jumps) :
    EndInStep (SameAt (ScopeRegistry.Known s external) []) IsProper
      ((document s external value).run {}) ((documentWithin jumps s external value).run {}) := by
  have hstart : SameAt (ScopeRegistry.Known s external) []
      { registry := ScopeRegistry.declare {} (Scope.ofExternal external) }
      { registry := ScopeRegistry.declare {} (Scope.ofExternal external) } :=
    ⟨rfl, rfl, ScopeRegistry.known_external s external⟩
  exact inStep_fold (keepsStep_ends s external value.depth _ [])
    (fun text value path scope hscope h => inStep_follow_ends hle hscope h) ⟨_, .root⟩
    (Scope.known_external s external) ⟨(Nat.zero_add _).le, activeAt_start value⟩ _ _ hstart

end

end Checking

/-- **Checking ends and restores its guard**, for all documents and values, whether the document has
a grammar or not.

It is never stopped by the bound on references in a row, and runs under larger bounds are the same.
Every check of a value against a fragment leaves the guard exactly as it was, in whatever state it
starts and however it ends. -/
theorem validate_ends (s : Schema) (external : Assoc Schema) (value : Value) :
    (∀ path name, validate s external value ≠ .error ⟨path, .exhausted name⟩) ∧
      (∀ jumps ≥ Checking.jumps s external value,
        (Checking.documentWithin jumps s external value).run {} =
          (Checking.document s external value).run {}) ∧
      ∀ (jumps : Nat) (t : Schema) (place : Place) (value : Value) (path : Path) (scope : Scope)
        (st : Checking),
        ((t.fold (Checking.step (Checking.follow jumps)) place value path scope).run st).2.active =
          st.active := by
  refine ⟨fun path name herror => ?_, fun jumps hle => ?_, Checking.active_fold⟩
  · exact (Checking.endInStep_documentWithin (le_refl _)).errors _ herror name rfl
  · have h := Checking.endInStep_documentWithin hle
    exact Prod.ext h.same h.states.eq

/-- A definition that is either itself or an alias of itself. -/
def aliasedSchema : Schema :=
  { reference := some "#/$defs/a"
    definitions := some
      [("a",
          { anyOf := some [{ reference := some "#/$defs/a" }, { reference := some "#/$defs/b" }] }),
        ("b", { reference := some "#/$defs/a" })] }

/-- There is no grammar for it, but values are checked all the same, and the guard is empty again
after they were refused. -/
theorem validate_ends_aliasedSchema :
    (lower aliasedSchema [] ⟨true, 4, 0⟩).isOk = false ∧
      (validate aliasedSchema [] .null).isOk = false ∧
      (∀ path name, validate aliasedSchema [] .null ≠ .error ⟨path, .exhausted name⟩) ∧
      ((Checking.document aliasedSchema [] .null).run {}).2.active = [] := by
  obtain ⟨hends, -, hguard⟩ := validate_ends aliasedSchema [] .null
  refine ⟨by decide +kernel, by decide +kernel, hends, ?_⟩
  rw [Checking.run_document]
  exact hguard (Checking.jumps aliasedSchema [] .null) aliasedSchema [] .null []
    (Scope.ofExternal []) { registry := ScopeRegistry.declare {} (Scope.ofExternal []) }

end SchemaGrammar
