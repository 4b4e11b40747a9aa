import Mathlib
import SchemaGrammar.Definitions.ScopeTable
import SchemaGrammar.Proofs.Fragments
import SchemaGrammar.Proofs.Lookup

/-!
# Lexical scoping

What a reference means is said by layers of definitions: the fragments around it each contribute
one, and the external definitions are below them all. The innermost layer that has the name counts,
and the definition found there sees that layer and the ones below it.

A run that goes through a schema does not keep layers. It keeps one flat scope, which may hold more
than the layers do: a definition is looked at from where it is referred to, and what is visible
there shows through. The invariant is that the flat scope agrees with the layers on the names that
the layers have. References of a lexically scoped document use no other names.

Definitions are told apart by where they stand, so the places of a document have to be told apart
by the steps to them. They are if names are distinct, as those of a map are.

## Main definitions

* `Env`, `Closure`, `Env.find?`: layers of definitions, and what a name means.
* `LexicallyScoped`, `DistinctNames`: what is asked of a document.
* `Fragment`: the fragments of a document, with their places and layers.
* `Scope.Covers`, `Scope.Genuine`, `ScopeRegistry.Sound`: a flat scope against layers.
* `Scope.Known`: a flat scope of definitions of the document, whatever its names mean.

## Main results

* `Fragment.unique`: a place has one fragment.
* `Scope.sound_entered`: inside a fragment the scope agrees with the layers there.
* `Scope.sees_visible`: so it does inside a definition, wherever that is referred to from.
* `ScopeTable.get_layer_ofFragment`, `ScopeTable.get_visible`: scopes that are shared by handle are
  the same ones.
-/

namespace SchemaGrammar

/-! ## Layers -/

/-- The definitions around a fragment: a layer for each fragment around it, the innermost first,
and below them the external ones. -/
abbrev Env := List (Assoc Schema)

/-- A definition, and the definitions visible inside it. -/
structure Closure where
  schema : Schema
  env : Env

namespace Env

/-- What a name means: the innermost layer that has it counts. -/
def find? (name : String) : Env → Option Closure
  | [] => none
  | layer :: outer =>
    match layer.get? name with
    | some schema => some ⟨schema, layer :: outer⟩
    | none => find? name outer

/-- The names of all layers. -/
def names (env : Env) : List String := env.flatMap Assoc.keys

variable {name : String} {layer : Assoc Schema} {env : Env}

theorem find?_of_get? {schema : Schema} (h : layer.get? name = some schema) :
    find? name (layer :: env) = some ⟨schema, layer :: env⟩ := by
  rw [find?, h]

theorem find?_of_none (h : layer.get? name = none) :
    find? name (layer :: env) = find? name env := by
  rw [find?, h]

theorem exists_find? (h : name ∈ env.names) : ∃ c, env.find? name = some c := by
  induction env with
  | nil => exact absurd h List.not_mem_nil
  | cons layer env ih =>
    cases hget : layer.get? name with
    | some schema => exact ⟨_, find?_of_get? hget⟩
    | none =>
      rw [find?_of_none hget]
      rw [names, List.flatMap_cons, List.mem_append] at h
      exact ih (h.resolve_left (Assoc.get?_eq_none_iff.mp hget))

end Env

/-- The layers inside a fragment. -/
def Schema.inner (s : Schema) (env : Env) : Env := s.ownDefinitions :: env

/-! ## Documents -/

namespace Schema

variable {α β : Type}

/-- Whether all parts pass a test. -/
def Parts.all (test : α → Bool) (p : Parts α) : Bool :=
  p.properties.all (fun e => test e.2) &&
    (p.additional.bind Additional.fragment?).all test && p.items.all test && p.leading.all test &&
    (p.oneOf.getD []).all test && (p.anyOf.getD []).all test &&
    p.definitions.all fun e => test e.2

theorem all_zipIdx (test : Schema → Bool) (list : List Schema) :
    (list.zipIdx.all fun e => test e.1) = list.all test := by
  have h := List.all_map (l := list.zipIdx) (f := Prod.fst) (p := test)
  rw [List.zipIdx_map_fst] at h
  exact h.symm

theorem fragment?_mapAdditional (f : Schema → β) (a : Option (Additional Schema)) :
    (a.map (mapAdditional f)).bind Additional.fragment? =
      (a.bind Additional.fragment?).map f := by
  rcases a with _ | (_ | child) <;> rfl

/-- The parts of a fragment are those of the fragments that it is made of. -/
theorem all_parts_map (f : Schema → β) (test : β → Bool) (s : Schema) :
    (s.parts.map f).all test = s.children.all fun e => test (f e.2) := by
  have hlist : ∀ list : Option (List Schema),
      ((list.map (·.map f)).getD []).all test = (list.getD []).all fun c => test (f c) := by
    intro list
    cases list <;> simp [Function.comp_def]
  have hoption : ∀ part : Option Schema,
      (part.map f).all test = part.toList.all fun c => test (f c) := by
    intro part
    cases part <;> simp
  simp only [Parts.all, Parts.map, parts, children, List.all_append, fragment?_mapAdditional,
    hlist, hoption, List.all_map, Function.comp_def, all_zipIdx fun c => test (f c), declared,
    ownDefinitions]

/-- Whether every reference names a definition of a fragment around it, or one of `names`. -/
def isScoped : Schema → List String → Bool :=
  fold fun s p names =>
    (s.reference.all fun text =>
      (definitionName? text).any (s.ownDefinitions.keys ++ names).contains) &&
    p.all fun part => part (s.ownDefinitions.keys ++ names)

/-- Whether no fragment has two properties or two definitions of one name. -/
def isDistinct : Schema → Bool :=
  fold fun s p =>
    decide s.declared.keys.Nodup && decide s.ownDefinitions.keys.Nodup && p.all id

theorem isScoped_iff {s : Schema} {names : List String} :
    s.isScoped names = true ↔
      (∀ text, s.reference = some text →
        ∃ name, definitionName? text = some name ∧ name ∈ s.ownDefinitions.keys ++ names) ∧
      ∀ e ∈ s.children, e.2.isScoped (s.ownDefinitions.keys ++ names) = true := by
  rw [isScoped, fold_eq, ← isScoped, all_parts_map, Bool.and_eq_true, List.all_eq_true]
  refine and_congr_left fun _ => ?_
  cases s.reference with
  | none => simp
  | some text => cases h : definitionName? text <;> simp [h]

theorem isDistinct_iff {s : Schema} :
    s.isDistinct = true ↔ s.declared.keys.Nodup ∧ s.ownDefinitions.keys.Nodup ∧
      ∀ e ∈ s.children, e.2.isDistinct = true := by
  rw [isDistinct, fold_eq, ← isDistinct, all_parts_map]
  simp [and_assoc]

end Schema

/-- Every reference names a definition of a fragment around it or an external one; one in an
external definition names a definition of a fragment around it there or an external one. -/
structure LexicallyScoped (s : Schema) (external : Assoc Schema) : Prop where
  schema : s.isScoped external.keys = true
  external : ∀ e ∈ external, e.2.isScoped external.keys = true

/-- No two properties of a fragment, definitions of a fragment or external definitions have the
same name. -/
structure DistinctNames (s : Schema) (external : Assoc Schema) : Prop where
  names : external.keys.Nodup
  schema : s.isDistinct = true
  external : ∀ e ∈ external, e.2.isDistinct = true

/-- `Fragment s external place env t`: the fragment `t` of the document stands at `place`, inside
the layers `env`. -/
inductive Fragment (s : Schema) (external : Assoc Schema) : Place → Env → Schema → Prop where
  | root : Fragment s external [] [external] s
  | external {name : String} {t : Schema} (h : (name, t) ∈ external) :
      Fragment s external [.external name] [external] t
  | child {place : Place} {env : Env} {t : Schema} {step : PlaceStep} {c : Schema}
      (h : Fragment s external place env t) (hc : (step, c) ∈ t.children) :
      Fragment s external (step :: place) (t.inner env) c

section

variable {s t t' : Schema} {external : Assoc Schema} {place : Place} {env env' : Env}

theorem Schema.external_notMem_children (s : Schema) (name : String) (c : Schema) :
    (.external name, c) ∉ s.children := by
  simp [children]

/-- A step leads to one fragment. -/
theorem Schema.child_unique (h : s.isDistinct = true) {step : PlaceStep} {c c' : Schema}
    (hc : (step, c) ∈ s.children) (hc' : (step, c') ∈ s.children) : c = c' := by
  obtain ⟨hprop, hdef, -⟩ := isDistinct_iff.mp h
  have hnamed : ∀ {entries : Assoc Schema} {name}, entries.keys.Nodup → (name, c) ∈ entries →
      (name, c') ∈ entries → c = c' := by
    intro entries name hn hm hm'
    exact Option.some.inj ((Assoc.get?_of_mem hn hm).symm.trans (Assoc.get?_of_mem hn hm'))
  have hlist : ∀ {list : List Schema} {i}, (c, i) ∈ list.zipIdx → (c', i) ∈ list.zipIdx →
      c = c' := by
    intro list i hm hm'
    rw [List.mk_mem_zipIdx_iff_getElem?] at hm hm'
    exact Option.some.inj (hm.symm.trans hm')
  have hoption : ∀ {part : Option Schema}, part = some c → part = some c' → c = c' :=
    fun hm hm' => Option.some.inj (hm.symm.trans hm')
  simp only [children, List.mem_append, List.mem_map, Option.mem_toList,
    Prod.mk.injEq, Prod.exists] at hc hc'
  cases step <;> simp at hc hc'
  case property key => exact hnamed hprop hc hc'
  case additional => exact hoption hc hc'
  case items => exact hoption hc hc'
  case leading i => exact hlist hc hc'
  case oneOf i => exact hlist hc hc'
  case anyOf i => exact hlist hc hc'
  case definition name => exact hnamed hdef hc hc'

theorem DistinctNames.isDistinct (hd : DistinctNames s external)
    (h : Fragment s external place env t) : t.isDistinct = true := by
  induction h with
  | root => exact hd.schema
  | external h => exact hd.external _ h
  | child _ hc ih => exact (Schema.isDistinct_iff.mp ih).2.2 _ hc

/-- **A place has one fragment**, and the layers around it are determined. -/
theorem Fragment.unique (hd : DistinctNames s external) (h : Fragment s external place env t)
    (h' : Fragment s external place env' t') : env = env' ∧ t = t' := by
  induction h generalizing env' t' with
  | root =>
    cases h'
    exact ⟨rfl, rfl⟩
  | external h =>
    cases h' with
    | external h' =>
      have heq := (Assoc.get?_of_mem hd.names h).symm.trans (Assoc.get?_of_mem hd.names h')
      exact ⟨rfl, Option.some.inj heq⟩
    | child _ hc => exact absurd hc (Schema.external_notMem_children _ _ _)
  | child h hc ih =>
    cases h' with
    | external => exact absurd hc (Schema.external_notMem_children _ _ _)
    | child h' hc' =>
      obtain ⟨rfl, rfl⟩ := ih h'
      exact ⟨rfl, Schema.child_unique (hd.isDistinct h) hc hc'⟩

theorem LexicallyScoped.isScoped (hs : LexicallyScoped s external)
    (h : Fragment s external place env t) : t.isScoped env.names = true := by
  have hlast : Env.names [external] = external.keys := by simp [Env.names]
  induction h with
  | root =>
    rw [hlast]
    exact hs.schema
  | external h =>
    rw [hlast]
    exact hs.external _ h
  | child _ hc ih => exact (Schema.isScoped_iff.mp ih).2 _ hc

/-- A reference of a lexically scoped document means something. -/
theorem LexicallyScoped.exists_closure (hs : LexicallyScoped s external)
    (h : Fragment s external place env t) {text : String} (ht : t.reference = some text) :
    ∃ name c, definitionName? text = some name ∧ (t.inner env).find? name = some c := by
  obtain ⟨name, hname, hmem⟩ := (Schema.isScoped_iff.mp (hs.isScoped h)).1 text ht
  have hnames : name ∈ (t.inner env).names := hmem
  obtain ⟨c, hc⟩ := Env.exists_find? hnames
  exact ⟨name, c, hname, hc⟩

end

/-! ## Flat scopes -/

/-- The name of the definition that a step leads to. -/
def PlaceStep.named? : PlaceStep → Option String
  | .external name | .definition name => some name
  | _ => none

/-- The name of the definition that stands at a place. -/
def Place.named? (place : Place) : Option String := place.head?.bind PlaceStep.named?

section

variable (s : Schema) (external : Assoc Schema)

/-- Under each name of the layers, the scope has what the name means there. -/
def Scope.Covers (scope : Scope) (env : Env) : Prop :=
  ∀ name c, env.find? name = some c → ∃ place,
    scope.get? name = some ⟨place, c.schema⟩ ∧ Fragment s external place c.env c.schema

/-- A scope of definitions of the document, each under its name and with its declaring scope
recorded. -/
structure Scope.Genuine (r : ScopeRegistry) (scope : Scope) : Prop where
  nodup : scope.keys.Nodup
  named : ∀ e ∈ scope, Place.named? e.2.place = some e.1
  fragment : ∀ e ∈ scope, ∃ env, Fragment s external e.2.place env e.2.schema
  recorded : ∀ e ∈ scope, ∃ declared, r.find? (e.1, e.2.place) = some declared

/-- The scope recorded for a definition has what the definition may refer to. -/
structure ScopeRegistry.Sound (r : ScopeRegistry) : Prop where
  genuine : ∀ {key declared}, r.find? key = some declared → Scope.Genuine s external r declared
  covers : ∀ {key declared}, r.find? key = some declared →
    ∀ {env t}, Fragment s external key.2 env t → Scope.Covers s external declared env

end

/-- What is recorded stays recorded. -/
def ScopeRegistry.Extends (r r' : ScopeRegistry) : Prop :=
  ∀ key declared, r.find? key = some declared → r'.find? key = some declared

namespace ScopeRegistry

variable {r r' r'' : ScopeRegistry}

theorem Extends.refl (r : ScopeRegistry) : r.Extends r := fun _ _ h => h

theorem Extends.trans (h : r.Extends r') (h' : r'.Extends r'') : r.Extends r'' :=
  fun key declared hfind => h' key declared (h key declared hfind)

theorem find?_go_append (key : DefinitionKey) (entries rest : List (DefinitionKey × Scope)) :
    Registry.find?.go key (entries ++ rest) =
      (Registry.find?.go key entries).or (Registry.find?.go key rest) := by
  induction entries with
  | nil => rfl
  | cons head entries ih =>
    obtain ⟨known, scope⟩ := head
    rw [List.cons_append, Registry.find?.go, Registry.find?.go, ih]
    split_ifs <;> rfl

theorem find?_record (r : ScopeRegistry) (key other : DefinitionKey) (scope : Scope) :
    (r.record key scope).find? other =
      (r.find? other).or (if other = key then some scope else none) := by
  unfold Registry.record
  by_cases hother : other = key
  · subst hother
    cases hfind : r.find? other with
    | some declared => simp [hfind]
    | none =>
      have hgo : Registry.find?.go other r.entries = none := hfind
      simp [Registry.find?, find?_go_append, hgo, Registry.find?.go]
  · have hne : key ≠ other := fun h => hother h.symm
    cases hfind : r.find? key with
    | some declared => simp [hother]
    | none => simp [Registry.find?, find?_go_append, Registry.find?.go, hother, hne]

theorem find?_register (r : ScopeRegistry) (keys : List DefinitionKey) (scope : Scope)
    (other : DefinitionKey) :
    (r.register keys scope).find? other =
      (r.find? other).or (if other ∈ keys then some scope else none) := by
  induction keys generalizing r with
  | nil => simp [Registry.register]
  | cons key keys ih =>
    have hcons : r.register (key :: keys) scope = (r.record key scope).register keys scope := rfl
    rw [hcons, ih, find?_record]
    by_cases hkey : other = key
    · cases r.find? other <;> simp [hkey]
    · simp [hkey]

theorem find?_declare (r : ScopeRegistry) (scope : Scope) (key : DefinitionKey) :
    (r.declare scope).find? key =
      (r.find? key).or (if key ∈ scope.definitionKeys then some scope else none) :=
  find?_register r _ scope key

theorem extends_declare (r : ScopeRegistry) (scope : Scope) : r.Extends (r.declare scope) := by
  intro key declared h
  rw [find?_declare, h]
  rfl

/-- What is recorded inside a fragment. -/
def entered (r : ScopeRegistry) (place : Place) (t : Schema) (scope : Scope) : ScopeRegistry :=
  if t.ownDefinitions.isEmpty then r
  else r.declare (Scope.layer scope (Scope.ofFragment place t))

end ScopeRegistry

namespace Scope

variable {s t : Schema} {external : Assoc Schema} {place : Place} {env : Env} {scope : Scope}
  {r r' : ScopeRegistry}

theorem get?_layer {outer inner : Scope} (h : inner.keys.Nodup) (name : String) :
    (layer outer inner).get? name = (inner.get? name).or (outer.get? name) :=
  Assoc.get?_update h name

theorem keys_ofFragment (place : Place) (t : Schema) :
    (ofFragment place t).keys = t.ownDefinitions.keys :=
  Assoc.keys_map _ _

theorem get?_ofFragment (place : Place) (t : Schema) (name : String) :
    (ofFragment place t).get? name =
      (t.ownDefinitions.get? name).map fun c => ⟨.definition name :: place, c⟩ :=
  Assoc.get?_map (fun name c => (⟨.definition name :: place, c⟩ : Definition)) _ _

theorem get?_ofExternal (external : Assoc Schema) (name : String) :
    (ofExternal external).get? name =
      (external.get? name).map fun c => ⟨[.external name], c⟩ :=
  Assoc.get?_map (fun name c => (⟨[.external name], c⟩ : Definition)) _ _

theorem Genuine.mono (h : Genuine s external r scope) (hr : r.Extends r') :
    Genuine s external r' scope where
  nodup := h.nodup
  named := h.named
  fragment := h.fragment
  recorded := fun e he => (h.recorded e he).imp fun _ => hr _ _

theorem mem_definitionKeys {key : DefinitionKey} :
    key ∈ scope.definitionKeys ↔ ∃ e ∈ scope, (e.1, e.2.place) = key := by
  simp [definitionKeys]

/-- Declaring a scope of which each definition is recorded, or sees no more than the scope has. -/
theorem sound_declare (hr : r.Sound s external) (hnodup : scope.keys.Nodup)
    (hnamed : ∀ e ∈ scope, Place.named? e.2.place = some e.1)
    (hfragment : ∀ e ∈ scope, ∃ env, Fragment s external e.2.place env e.2.schema)
    (hnew : ∀ e ∈ scope, (∃ declared, r.find? (e.1, e.2.place) = some declared) ∨
      ∀ {env t}, Fragment s external e.2.place env t → Covers s external scope env) :
    (r.declare scope).Sound s external ∧ Genuine s external (r.declare scope) scope := by
  have hext := r.extends_declare scope
  have hgenuine : Genuine s external (r.declare scope) scope := by
    refine ⟨hnodup, hnamed, hfragment, fun e he => ?_⟩
    rw [ScopeRegistry.find?_declare, if_pos (mem_definitionKeys.mpr ⟨e, he, rfl⟩)]
    cases r.find? (e.1, e.2.place) with
    | some declared => exact ⟨declared, rfl⟩
    | none => exact ⟨scope, rfl⟩
  -- A key is recorded as before, or is one of the scope that was not recorded.
  have hcases : ∀ {key declared}, (r.declare scope).find? key = some declared →
      r.find? key = some declared ∨
        declared = scope ∧ r.find? key = none ∧ key ∈ scope.definitionKeys := by
    intro key declared hfind
    rw [ScopeRegistry.find?_declare] at hfind
    cases hold : r.find? key with
    | some old =>
      rw [hold] at hfind
      exact .inl hfind
    | none =>
      rw [hold, Option.none_or] at hfind
      split_ifs at hfind with hmem
      exact .inr ⟨(Option.some.inj hfind).symm, rfl, hmem⟩
  refine ⟨⟨fun hfind => ?_, fun hfind env t hfrag => ?_⟩, hgenuine⟩
  · rcases hcases hfind with hold | ⟨rfl, -, -⟩
    · exact (hr.genuine hold).mono hext
    · exact hgenuine
  · rcases hcases hfind with hold | ⟨rfl, hnone, hmem⟩
    · exact hr.covers hold hfrag
    · obtain ⟨e, he, rfl⟩ := mem_definitionKeys.mp hmem
      rcases hnew e he with ⟨declared, hdeclared⟩ | hcovers
      · rw [hdeclared] at hnone
        cases hnone
      · exact hcovers hfrag

/-- A genuine scope that has what the layers mean. -/
structure Sees (s : Schema) (external : Assoc Schema) (r : ScopeRegistry) (scope : Scope)
    (env : Env) : Prop where
  genuine : Genuine s external r scope
  covers : Covers s external scope env

theorem Sees.mono (h : Sees s external r scope env) (hr : r.Extends r') :
    Sees s external r' scope env :=
  ⟨h.genuine.mono hr, h.covers⟩

/-! ### The outermost scope -/

theorem sound_external (hd : DistinctNames s external) :
    let r : ScopeRegistry := ScopeRegistry.declare {} (ofExternal external)
    r.Sound s external ∧ Sees s external r (ofExternal external) [external] := by
  have hempty : ScopeRegistry.Sound s external {} :=
    ⟨fun h => absurd h (by simp [Registry.find?, Registry.find?.go]),
      fun h => absurd h (by simp [Registry.find?, Registry.find?.go])⟩
  have hmem : ∀ e ∈ ofExternal external, e.2.place = [.external e.1] ∧
      Fragment s external e.2.place [external] e.2.schema := by
    intro e he
    obtain ⟨entry, hentry, rfl⟩ := List.mem_map.mp he
    exact ⟨rfl, .external hentry⟩
  have hcovers : Covers s external (ofExternal external) [external] := by
    intro name c hfind
    cases hget : external.get? name with
    | none =>
      rw [Env.find?_of_none hget] at hfind
      cases hfind
    | some schema =>
      rw [Env.find?_of_get? hget] at hfind
      cases hfind
      refine ⟨[.external name], ?_, .external (Assoc.mem_of_get? hget)⟩
      rw [get?_ofExternal, hget]
      rfl
  have hsound := sound_declare hempty ((Assoc.keys_map _ _).symm ▸ hd.names)
    (fun e he => by rw [(hmem e he).1]; rfl) (fun e he => ⟨_, (hmem e he).2⟩)
    (fun e he => .inr fun hfrag => by rw [← ((hmem e he).2.unique hd hfrag).1]; exact hcovers)
  exact ⟨hsound.1, hsound.2, hcovers⟩

/-! ### Entering a fragment -/

/-- The scope inside a fragment. -/
def entered (place : Place) (t : Schema) (scope : Scope) : Scope :=
  if t.ownDefinitions.isEmpty then scope else layer scope (ofFragment place t)

theorem sound_entered (hd : DistinctNames s external) (hr : r.Sound s external)
    (h : Sees s external r scope env) (hf : Fragment s external place env t) :
    (r.entered place t scope).Sound s external ∧
      Sees s external (r.entered place t scope) (scope.entered place t) (t.inner env) ∧
      r.Extends (r.entered place t scope) := by
  unfold entered ScopeRegistry.entered
  by_cases hempty : t.ownDefinitions.isEmpty
  · rw [if_pos hempty, if_pos hempty]
    refine ⟨hr, ⟨h.genuine, fun name c hfind => h.covers name c ?_⟩, .refl r⟩
    rw [Schema.inner, List.isEmpty_iff.mp hempty, Env.find?_of_none rfl] at hfind
    exact hfind
  · rw [if_neg hempty, if_neg hempty]
    have hown : (ofFragment place t).keys.Nodup :=
      keys_ofFragment place t ▸ (Schema.isDistinct_iff.mp (hd.isDistinct hf)).2.1
    have hcovers : Covers s external (layer scope (ofFragment place t)) (t.inner env) := by
      intro name c hfind
      rw [get?_layer hown, get?_ofFragment]
      cases hget : t.ownDefinitions.get? name with
      | some schema =>
        rw [Schema.inner, Env.find?_of_get? hget] at hfind
        cases hfind
        exact ⟨_, rfl, .child hf (Schema.definition_mem_children (Assoc.mem_of_get? hget))⟩
      | none =>
        rw [Schema.inner, Env.find?_of_none hget] at hfind
        exact h.covers name c hfind
    have hmem : ∀ e ∈ ofFragment place t, e.2.place = .definition e.1 :: place ∧
        Fragment s external e.2.place (t.inner env) e.2.schema := by
      intro e he
      obtain ⟨entry, hentry, rfl⟩ := List.mem_map.mp he
      exact ⟨rfl, .child hf (Schema.definition_mem_children hentry)⟩
    have hsound := sound_declare hr (Assoc.nodup_keys_update h.genuine.nodup _)
      (fun e he => (Assoc.mem_of_mem_update he).elim
        (fun he => by rw [(hmem e he).1]; rfl) (h.genuine.named e))
      (fun e he => (Assoc.mem_of_mem_update he).elim
        (fun he => ⟨_, (hmem e he).2⟩) (h.genuine.fragment e))
      (fun e he => (Assoc.mem_of_mem_update he).symm.imp (h.genuine.recorded e)
        fun he env' t' hfrag => by rw [← ((hmem e he).2.unique hd hfrag).1]; exact hcovers)
    exact ⟨hsound.1, ⟨hsound.2, hcovers⟩, r.extends_declare _⟩

/-! ### Following a reference -/

theorem eq_of_agree (hd : DistinctNames s external) {site declared : Scope}
    (h : ∀ e ∈ site, ∃ env, Fragment s external e.2.place env e.2.schema)
    (h' : ∀ e ∈ declared, ∃ env, Fragment s external e.2.place env e.2.schema)
    (hagree : agree site declared = true) : site = declared := by
  induction site generalizing declared with
  | nil =>
    cases declared with
    | nil => rfl
    | cons e declared => simp [agree] at hagree
  | cons e site ih =>
    cases declared with
    | nil => simp [agree] at hagree
    | cons e' declared =>
      obtain ⟨name, place, schema⟩ := e
      obtain ⟨name', place', schema'⟩ := e'
      simp only [agree, Bool.and_eq_true, beq_iff_eq] at hagree
      obtain ⟨⟨rfl, rfl⟩, hagree⟩ := hagree
      obtain ⟨env, hf⟩ := h _ List.mem_cons_self
      obtain ⟨env', hf'⟩ := h' _ List.mem_cons_self
      obtain ⟨-, hschema⟩ := hf.unique hd hf'
      have hrest := ih (fun e he => h e (List.mem_cons_of_mem _ he))
        (fun e he => h' e (List.mem_cons_of_mem _ he)) hagree
      dsimp only at hschema
      rw [hschema, hrest]

/-- Inside a definition, the scope that was recorded for it lies over the one of the reference; if
the two are the same, that changes nothing. -/
theorem visible_eq_layer (hd : DistinctNames s external) (hr : r.Sound s external)
    (h : Genuine s external r scope) {key : DefinitionKey} {declared : Scope}
    (hfind : r.find? key = some declared) : r.visible scope key = layer scope declared := by
  rw [ScopeRegistry.visible, hfind, Option.getD_some]
  split_ifs with hagree
  · rw [← eq_of_agree hd h.fragment (hr.genuine hfind).fragment hagree, layer,
      Assoc.update_self h.nodup]
  · rfl

/-- The scope inside a definition has what the definition may refer to, wherever it is referred to
from. -/
theorem sees_visible (hd : DistinctNames s external) (hr : r.Sound s external)
    (h : Genuine s external r scope) {name : String} {definition : Definition}
    (hget : scope.get? name = some definition)
    (hf : Fragment s external definition.place env definition.schema) :
    Sees s external r (r.visible scope (name, definition.place)) env := by
  obtain ⟨declared, hfind⟩ := h.recorded _ (Assoc.mem_of_get? hget)
  have hgenuine := hr.genuine hfind
  have hcovers := hr.covers hfind hf
  rw [visible_eq_layer hd hr h hfind]
  refine ⟨⟨Assoc.nodup_keys_update h.nodup _, ?_, ?_, ?_⟩, fun name' c hc => ?_⟩
  · exact fun e he => (Assoc.mem_of_mem_update he).elim (hgenuine.named e) (h.named e)
  · exact fun e he => (Assoc.mem_of_mem_update he).elim (hgenuine.fragment e) (h.fragment e)
  · exact fun e he => (Assoc.mem_of_mem_update he).elim (hgenuine.recorded e) (h.recorded e)
  · obtain ⟨place', hplace, hfrag⟩ := hcovers name' c hc
    rw [get?_layer hgenuine.nodup, hplace]
    exact ⟨place', rfl, hfrag⟩

end Scope

/-! ### Scopes by handle

A table hands out the scopes that a run goes through, where it enters a fragment and where it
follows a reference. -/

namespace ScopeTable

variable {s t : Schema} {external : Assoc Schema} {place : Place} {r : ScopeRegistry}
  {table : ScopeTable Definition}

theorem get_layer_ofFragment {outer own : ScopeHandle}
    (hown : table.get own = Scope.ofFragment place t) :
    (table.layer outer own).2.get (table.layer outer own).1 =
      Scope.entered place t (table.get outer) := by
  rw [get_layer, hown, Scope.entered]
  split_ifs with hempty
  · rw [Scope.ofFragment, List.isEmpty_iff.mp hempty, List.map_nil, Scope.layer_nil]
  · rfl

theorem get_visible (hd : DistinctNames s external) (hr : r.Sound s external)
    {site declared : ScopeHandle} (hsite : Scope.Genuine s external r (table.get site))
    {key : DefinitionKey} (hfind : r.find? key = some (table.get declared)) :
    (table.visible site declared).2.get (table.visible site declared).1 =
      r.visible (table.get site) key := by
  rw [Scope.visible_eq_layer hd hr hsite hfind, visible]
  split_ifs with hsame
  · rw [← hsame, Scope.layer, Assoc.update_self hsite.nodup]
  · rw [get_layer]

end ScopeTable

/-! ## Counting definitions

The bound on how many references are followed counts the definitions of a document. Each of them
has a key of its own. -/

namespace Schema

/-- The definitions inside a fragment at `place`. -/
def definitionKeys (s : Schema) (place : Place) : List DefinitionKey :=
  s.children.attach.flatMap fun e =>
    e.1.1.named?.toList.map (·, e.1.1 :: place) ++ e.1.2.definitionKeys (e.1.1 :: place)
termination_by sizeOf s
decreasing_by exact sizeOf_lt_of_mem_children e.2

theorem definitionKeys_eq (s : Schema) (place : Place) :
    s.definitionKeys place = s.children.flatMap fun e =>
      e.1.named?.toList.map (·, e.1 :: place) ++ e.2.definitionKeys (e.1 :: place) := by
  rw [definitionKeys, List.flatMap_subtype (g := fun e =>
    e.1.named?.toList.map (·, e.1 :: place) ++ e.2.definitionKeys (e.1 :: place)) (fun _ _ => rfl),
    List.unattach_attach]

theorem totalOf_eq_sum {α : Type} (size : α → Nat) (list : List α) :
    totalOf size list = (list.map size).sum := by
  induction list with
  | nil => rfl
  | cons x list ih => rw [List.map_cons, List.sum_cons, ← ih, totalOf, totalOf, List.foldr_cons]

theorem sum_zipIdx (size : Schema → Nat) (list : List Schema) :
    (list.zipIdx.map fun e => size e.1).sum = (list.map size).sum := by
  have h := List.map_map (f := Prod.fst) (g := size) (l := list.zipIdx)
  rw [List.zipIdx_map_fst] at h
  exact congrArg List.sum h.symm

/-- The definitions inside a fragment are those of the fragments it is made of, and those that
these are. -/
theorem definitionCount_eq (s : Schema) : s.definitionCount =
    (s.children.map fun e => e.1.named?.toList.length + e.2.definitionCount).sum := by
  have hlist : ∀ list : Option (List Schema),
      totalOf id ((list.map (·.map definitionCount)).getD []) =
        ((list.getD []).map definitionCount).sum := by
    intro list
    cases list <;> simp [totalOf_eq_sum]
  have hitems : (s.items.map definitionCount).getD 0 =
      (s.items.toList.map definitionCount).sum := by
    cases s.items <;> simp
  rw [definitionCount, fold_eq, ← definitionCount]
  simp only [parts, Parts.map, children, hlist, hitems, totalOf_eq_sum, List.map_append,
    List.sum_append, List.map_map, Function.comp_def, PlaceStep.named?, Option.toList_none,
    Option.toList_some, List.length_nil, List.length_singleton, Nat.zero_add, Nat.add_comm _ 1,
    sum_zipIdx definitionCount, declared, ownDefinitions, id]
  rcases s.additional with _ | (_ | child) <;>
    simp [mapAdditional, Additional.fragment?]

theorem length_definitionKeys (s : Schema) (place : Place) :
    (s.definitionKeys place).length = s.definitionCount := by
  induction s using Schema.induction generalizing place with
  | h s ih =>
    rw [definitionKeys_eq, definitionCount_eq, List.length_flatMap]
    congr 1
    refine List.map_congr_left fun e he => ?_
    rw [List.length_append, List.length_map, ih e he]

end Schema

/-- The keys of all definitions of a document. -/
def documentKeys (s : Schema) (external : Assoc Schema) : List DefinitionKey :=
  s.definitionKeys [] ++ external.flatMap fun e =>
    (e.1, [.external e.1]) :: e.2.definitionKeys [.external e.1]

theorem length_documentKeys (s : Schema) (external : Assoc Schema) :
    (documentKeys s external).length = s.definitionTotal external := by
  rw [documentKeys, Schema.definitionTotal, List.length_append, Schema.length_definitionKeys,
    List.length_flatMap, Schema.totalOf_eq_sum]
  simp only [List.length_cons, Schema.length_definitionKeys]

section

variable {s t : Schema} {external : Assoc Schema} {place : Place} {env : Env}

theorem Fragment.definitionKeys_subset (h : Fragment s external place env t) :
    t.definitionKeys place ⊆ documentKeys s external := by
  induction h with
  | root => exact List.subset_append_left _ _
  | external h =>
    intro key hkey
    exact List.mem_append_right _ (List.mem_flatMap.mpr ⟨_, h, List.mem_cons_of_mem _ hkey⟩)
  | child _ hc ih =>
    intro key hkey
    refine ih ?_
    rw [Schema.definitionKeys_eq]
    exact List.mem_flatMap.mpr ⟨_, hc, List.mem_append_right _ hkey⟩

/-- A definition of a document has one of its keys. -/
theorem Fragment.mem_documentKeys (h : Fragment s external place env t) {name : String}
    (hname : Place.named? place = some name) : (name, place) ∈ documentKeys s external := by
  cases h with
  | root => cases hname
  | external h =>
    cases hname
    exact List.mem_append_right _ (List.mem_flatMap.mpr ⟨_, h, List.mem_cons_self⟩)
  | child h hc =>
    refine h.definitionKeys_subset ?_
    rw [Schema.definitionKeys_eq]
    refine List.mem_flatMap.mpr ⟨_, hc, List.mem_append_left _ ?_⟩
    rw [show PlaceStep.named? _ = some name from hname]
    exact List.mem_singleton_self _

end

/-! ## Scopes that hold definitions of the document

What holds of the definitions of a document holds of all that come into scope. -/

section

variable {p : String × Definition → Prop} {r : ScopeRegistry} {scope : Scope}

theorem Scope.forall_layer {outer inner : Scope} (ho : ∀ e ∈ outer, p e) (hi : ∀ e ∈ inner, p e) :
    ∀ e ∈ layer outer inner, p e := fun e he =>
  (Assoc.mem_of_mem_update he).elim (hi e) (ho e)

theorem ScopeRegistry.mem_of_find? {key : DefinitionKey} (h : r.find? key = some scope) :
    (key, scope) ∈ r.entries := by
  obtain ⟨entries⟩ := r
  induction entries with
  | nil => cases h
  | cons head entries ih =>
    obtain ⟨known, declared⟩ := head
    have hgo : (if known = key then some declared else Registry.find? ⟨entries⟩ key) = some scope := h
    split_ifs at hgo with hkey
    · cases hgo
      exact hkey ▸ List.mem_cons_self
    · exact List.mem_cons_of_mem _ (ih hgo)

theorem Scope.forall_visible (hr : ∀ declared ∈ r.entries, ∀ e ∈ declared.2, p e)
    (hs : ∀ e ∈ scope, p e) (key : DefinitionKey) : ∀ e ∈ r.visible scope key, p e := by
  have hdeclared : ∀ e ∈ (r.find? key).getD scope, p e := by
    cases hfind : r.find? key with
    | none => exact hs
    | some declared => exact hr _ (ScopeRegistry.mem_of_find? hfind)
  unfold ScopeRegistry.visible
  dsimp only
  split_ifs
  · exact hs
  · exact forall_layer hs hdeclared

theorem ScopeRegistry.forall_declare (hr : ∀ declared ∈ r.entries, ∀ e ∈ declared.2, p e)
    (hs : ∀ e ∈ scope, p e) : ∀ declared ∈ (r.declare scope).entries, ∀ e ∈ declared.2, p e := by
  unfold ScopeRegistry.declare Registry.register
  generalize scope.definitionKeys = keys
  induction keys generalizing r with
  | nil => exact hr
  | cons key keys ih =>
    refine ih ?_
    dsimp only [Registry.record]
    split
    · exact hr
    · exact List.forall_mem_append.mpr ⟨hr, List.forall_mem_singleton.mpr hs⟩

end

/-- A fragment that stands at some place of the document. -/
def InDocument (s : Schema) (external : Assoc Schema) (place : Place) (t : Schema) : Prop :=
  ∃ env, Fragment s external place env t

/-- The definitions in scope stand in the document and are known by their names. -/
def Scope.Known (s : Schema) (external : Assoc Schema) (scope : Scope) : Prop :=
  ∀ e ∈ scope, InDocument s external e.2.place e.2.schema ∧
    (e.1, e.2.place) ∈ documentKeys s external

/-- The scopes that are recorded hold definitions of the document. -/
def ScopeRegistry.Known (s : Schema) (external : Assoc Schema) (r : ScopeRegistry) : Prop :=
  ∀ declared ∈ r.entries, Scope.Known s external declared.2

section

variable {s t : Schema} {external : Assoc Schema} {place : Place} {scope : Scope}
  {r : ScopeRegistry}

theorem InDocument.child (h : InDocument s external place t) {e : PlaceStep × Schema}
    (he : e ∈ t.children) : InDocument s external (e.1 :: place) e.2 := by
  obtain ⟨env, hf⟩ := h
  exact ⟨_, .child hf he⟩

theorem Scope.known_external (s : Schema) (external : Assoc Schema) :
    (ofExternal external).Known s external := by
  refine List.forall_mem_map.mpr fun e he => ?_
  have hf : Fragment s external [.external e.1] [external] e.2 := .external he
  exact ⟨⟨_, hf⟩, hf.mem_documentKeys rfl⟩

theorem Scope.known_ofFragment (h : InDocument s external place t) :
    (Scope.ofFragment place t).Known s external := by
  refine List.forall_mem_map.mpr fun e he => ?_
  obtain ⟨env, hf⟩ := h
  have hchild := hf.child (Schema.definition_mem_children he)
  exact ⟨⟨_, hchild⟩, hchild.mem_documentKeys rfl⟩

theorem Scope.Known.entered (hscope : scope.Known s external) (h : InDocument s external place t) :
    (scope.entered place t).Known s external := by
  unfold Scope.entered
  split_ifs
  · exact hscope
  · exact forall_layer hscope (known_ofFragment h)

theorem ScopeRegistry.Known.entered (hr : r.Known s external) (hscope : scope.Known s external)
    (h : InDocument s external place t) : (r.entered place t scope).Known s external := by
  unfold ScopeRegistry.entered
  split_ifs
  · exact hr
  · exact forall_declare hr (Scope.forall_layer hscope (Scope.known_ofFragment h))

theorem ScopeRegistry.known_external (s : Schema) (external : Assoc Schema) :
    (ScopeRegistry.declare {} (Scope.ofExternal external)).Known s external :=
  forall_declare (fun _ h => absurd h List.not_mem_nil) (Scope.known_external s external)

end

end SchemaGrammar
