import SchemaGrammar.Proofs.Scoping

/-!
# Where a name is declared

The layers around a fragment say what a name means, but not where that stands: two fragments in
different places may declare the same text under the same name. Here the meaning of a name is read
off the place of the fragment that uses it: the innermost fragment around that place which declares
the name has its definition, and if none does it is an external one.

The invariant of a run is as for layers. The flat scope around a fragment has, under each name that
means something there, the definition at the very place where the name is declared, and so has the
scope that was recorded for a definition.

## Main definitions

* `fragmentAt?`: the fragment at a place.
* `lexical?`, `around?`: the definition that a name means inside and around the fragment at a place.
* `Scope.Holds`, `ScopeRegistry.Exact`: a flat scope has the definitions that names mean.

## Main results

* `Scope.holds_entered`, `Scope.holds_visible`: entering a fragment and following a reference keep
  the scope right.
* `ScopeRegistry.exact_entered`: so does the registry stay.
-/

namespace SchemaGrammar

/-! ## Meaning by place -/

section

variable (s : Schema) (external : Assoc Schema)

/-- The fragment at a place. -/
def fragmentAt? : Place → Option Schema
  | [] => some s
  | .external name :: _ => external.get? name
  | step :: outer => (fragmentAt? outer).bind fun t => t.children.lookup step

/-- The definition that the fragment at a place declares under a name. -/
def declaredAt? (place : Place) (name : String) : Option Definition :=
  (fragmentAt? s external place).bind fun t => (Scope.ofFragment place t).get? name

/-- The definition that a name means inside the fragment at a place: that of the innermost fragment
around it, itself included, which declares the name, or else the external one. -/
def lexical? : Place → String → Option Definition
  | [], name => (declaredAt? s external [] name).or ((Scope.ofExternal external).get? name)
  | .external other :: outer, name =>
    (declaredAt? s external (.external other :: outer) name).or
      ((Scope.ofExternal external).get? name)
  | step :: outer, name =>
    (declaredAt? s external (step :: outer) name).or (lexical? outer name)

/-- The definition that a name means around the fragment at a place. -/
def around? : Place → String → Option Definition
  | [], name | .external _ :: _, name => (Scope.ofExternal external).get? name
  | _ :: outer, name => lexical? s external outer name

end

section

variable {s t c : Schema} {external : Assoc Schema} {place : Place} {env : Env} {step : PlaceStep}

theorem lexical?_eq (place : Place) (name : String) : lexical? s external place name =
    (declaredAt? s external place name).or (around? s external place name) := by
  cases place with
  | nil => rfl
  | cons step outer => cases step <;> rfl

theorem around?_child (hc : (step, c) ∈ t.children) :
    around? s external (step :: place) = lexical? s external place := by
  cases step with
  | external name => exact absurd hc (Schema.external_notMem_children _ _ _)
  | _ => rfl

theorem lookup_children (ht : t.isDistinct = true) (hc : (step, c) ∈ t.children) :
    t.children.lookup step = some c := by
  cases hlookup : t.children.lookup step with
  | none => simpa using List.lookup_eq_none_iff.mp hlookup _ hc
  | some found =>
    obtain ⟨before, after, heq, -⟩ := List.lookup_eq_some_iff.mp hlookup
    have hfound : (step, found) ∈ t.children := by simp [heq]
    rw [Schema.child_unique ht hfound hc]

theorem Fragment.fragmentAt?_eq (hd : DistinctNames s external)
    (h : Fragment s external place env t) : fragmentAt? s external place = some t := by
  induction h with
  | root => rfl
  | external h => exact Assoc.get?_of_mem hd.names h
  | @child place env t step c h hc ih =>
    have hstep : fragmentAt? s external (step :: place) =
        (fragmentAt? s external place).bind fun t => t.children.lookup step := by
      cases step with
      | external name => exact absurd hc (Schema.external_notMem_children _ _ _)
      | _ => rfl
    rw [hstep, ih, Option.bind_some]
    exact lookup_children (hd.isDistinct h) hc

theorem Fragment.declaredAt?_eq (hd : DistinctNames s external)
    (h : Fragment s external place env t) (name : String) :
    declaredAt? s external place name = (Scope.ofFragment place t).get? name := by
  rw [declaredAt?, h.fragmentAt?_eq hd, Option.bind_some]

/-- A name means something inside a fragment if it does around it or is declared by it. -/
theorem Fragment.exists_lexical? (hd : DistinctNames s external)
    (h : Fragment s external place env t) {name : String} {closure : Closure}
    (hfind : (t.inner env).find? name = some closure)
    (haround : env.find? name = some closure →
      ∃ definition, around? s external place name = some definition) :
    ∃ definition, lexical? s external place name = some definition := by
  rw [lexical?_eq, h.declaredAt?_eq hd, Scope.get?_ofFragment]
  cases hget : t.ownDefinitions.get? name with
  | some own => exact ⟨_, rfl⟩
  | none =>
    rw [Schema.inner, Env.find?_of_none hget] at hfind
    exact haround hfind

/-- A name that the layers around a fragment have means something there. -/
theorem Fragment.exists_around? (hd : DistinctNames s external)
    (h : Fragment s external place env t) {name : String} {closure : Closure}
    (hfind : env.find? name = some closure) :
    ∃ definition, around? s external place name = some definition := by
  have houtermost : ∀ {closure}, Env.find? name [external] = some closure →
      ∃ definition, (Scope.ofExternal external).get? name = some definition := by
    intro closure hfind
    cases hget : external.get? name with
    | none =>
      rw [Env.find?_of_none hget] at hfind
      cases hfind
    | some c => exact ⟨_, by rw [Scope.get?_ofExternal, hget, Option.map_some]⟩
  induction h generalizing closure with
  | root => exact houtermost hfind
  | external h => exact houtermost hfind
  | child h hc ih =>
    rw [around?_child hc]
    exact h.exists_lexical? hd hfind ih

/-- A reference of a lexically scoped document means a definition. -/
theorem LexicallyScoped.exists_definition (hd : DistinctNames s external)
    (hs : LexicallyScoped s external) (h : Fragment s external place env t) {text : String}
    (ht : t.reference = some text) : ∃ name definition, definitionName? text = some name ∧
      lexical? s external place name = some definition := by
  obtain ⟨name, closure, hname, hfind⟩ := hs.exists_closure h ht
  obtain ⟨definition, hlexical⟩ := h.exists_lexical? hd hfind fun henv => h.exists_around? hd henv
  exact ⟨name, definition, hname, hlexical⟩

end

/-! ## Flat scopes -/

/-- Under each name that means something, the scope has what it means. -/
def Scope.Holds (scope : Scope) (meaning : String → Option Definition) : Prop :=
  ∀ name definition, meaning name = some definition → scope.get? name = some definition

/-- The scope recorded for a definition has what names mean around it. -/
def ScopeRegistry.Exact (s : Schema) (external : Assoc Schema) (r : ScopeRegistry) : Prop :=
  ∀ key declared, r.find? key = some declared → declared.Holds (around? s external key.2)

section

variable {s t : Schema} {external : Assoc Schema} {place : Place} {env : Env} {scope : Scope}
  {r : ScopeRegistry}

theorem Scope.Holds.layer {inner : Scope} {meaning : String → Option Definition}
    (hn : inner.keys.Nodup) (h : inner.Holds meaning) :
    Scope.Holds (Scope.layer scope inner) meaning := by
  intro name definition hname
  rw [get?_layer hn, h name definition hname]
  rfl

/-- A scope may be declared if its definitions are recorded, or stand where it has what names
mean. -/
theorem ScopeRegistry.Exact.declare (hr : r.Exact s external)
    (hnew : ∀ e ∈ scope, (∃ declared, r.find? (e.1, e.2.place) = some declared) ∨
      scope.Holds (around? s external e.2.place)) : (r.declare scope).Exact s external := by
  intro key declared hfind
  rw [find?_declare] at hfind
  cases hold : r.find? key with
  | some old =>
    rw [hold] at hfind
    exact hr key declared (hold.trans hfind)
  | none =>
    rw [hold, Option.none_or] at hfind
    split_ifs at hfind with hmem
    cases hfind
    obtain ⟨e, he, rfl⟩ := Scope.mem_definitionKeys.mp hmem
    refine (hnew e he).resolve_left ?_
    rintro ⟨known, hknown⟩
    cases hold.symm.trans hknown

theorem ScopeRegistry.exact_external (s : Schema) (external : Assoc Schema) :
    ScopeRegistry.Exact s external (ScopeRegistry.declare {} (Scope.ofExternal external)) := by
  refine ScopeRegistry.Exact.declare (fun key declared hfind => ?_) fun e he => .inr ?_
  · simp [Registry.find?, Registry.find?.go] at hfind
  · obtain ⟨entry, -, rfl⟩ := List.mem_map.mp he
    exact fun name definition h => h

/-- Inside a fragment the scope has what names mean there. -/
theorem Scope.holds_entered (hd : DistinctNames s external) (hf : Fragment s external place env t)
    (h : scope.Holds (around? s external place)) :
    (scope.entered place t).Holds (lexical? s external place) := by
  intro name definition hname
  rw [lexical?_eq, hf.declaredAt?_eq hd] at hname
  unfold entered
  split_ifs with hempty
  · have hnone : (ofFragment place t).get? name = none := by
      rw [ofFragment, List.isEmpty_iff.mp hempty]
      rfl
    rw [hnone, Option.none_or] at hname
    exact h name definition hname
  · have hown : (ofFragment place t).keys.Nodup :=
      keys_ofFragment place t ▸ (Schema.isDistinct_iff.mp (hd.isDistinct hf)).2.1
    rw [get?_layer hown]
    cases hget : (ofFragment place t).get? name with
    | some found =>
      rw [hget] at hname
      exact hname
    | none =>
      rw [hget, Option.none_or] at hname
      exact h name definition hname

/-- What is recorded inside a fragment is right if what is recorded around it is. -/
theorem ScopeRegistry.exact_entered (hd : DistinctNames s external) (hr : r.Exact s external)
    (hscope : Scope.Genuine s external r scope) (hf : Fragment s external place env t)
    (h : scope.Holds (around? s external place)) : (r.entered place t scope).Exact s external := by
  have hinner := Scope.holds_entered hd hf h
  unfold ScopeRegistry.entered
  unfold Scope.entered at hinner
  split_ifs with hempty
  · exact hr
  · rw [if_neg hempty] at hinner
    refine hr.declare fun e he => (Assoc.mem_of_mem_update he).symm.imp (hscope.recorded e) ?_
    intro hown
    obtain ⟨entry, hentry, rfl⟩ := List.mem_map.mp hown
    rw [around?_child (Schema.definition_mem_children hentry)]
    exact hinner

/-- Inside a definition the scope has what names mean there, wherever it is referred to from. -/
theorem Scope.holds_visible (hd : DistinctNames s external) (hs : r.Sound s external)
    (hr : r.Exact s external) (h : Genuine s external r scope) {name : String}
    {definition : Definition} (hget : scope.get? name = some definition) :
    (r.visible scope (name, definition.place)).Holds (around? s external definition.place) := by
  obtain ⟨declared, hfind⟩ := h.recorded _ (Assoc.mem_of_get? hget)
  rw [visible_eq_layer hd hs h hfind]
  exact (hr _ declared hfind).layer (hs.genuine hfind).nodup

end

end SchemaGrammar
