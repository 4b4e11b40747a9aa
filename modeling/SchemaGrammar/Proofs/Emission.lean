import SchemaGrammar.Proofs.EmissionGraph
import SchemaGrammar.Proofs.LoweredTable

/-!
# Emission of a schema's shapes

Every function of the emitter is told how the parts of a shape are resolved, and resolves the shape.
So one lemma for each function says: if the parts get references that stand for them, so does the
shape. Induction on the depth of nesting gives the whole.

## Why emission succeeds

Emission fails on a table with a shape missing, a reference without target, or nesting deeper than
its bound. The table of a schema has all shapes and targets. What a shape is made of comes before
it, and a reference in progress is not entered again; so with each reference that is entered one
shape less can be entered, and between two of them the shapes get smaller. This is the bound.

## Main definitions

* `Shapes.Ready`: what emission relies on.
* `idle`: the number of shapes that are not in progress.
* `Stage`: a state of an emission with the names that were given away.
* `Succeeds`: a step that succeeds, in an orderly state.
* `Emitter.AtRest`: nothing is in progress.

## Main results

* `ready_lower`: the table of a schema is ready.
* `succeeds_resolve`, `succeeds_render`, `exists_emit`: every shape can be resolved, rendered and
  made the root rule, and what this gives stands for the shape.
-/

namespace SchemaGrammar

open Grammar
open Relation (ReflTransGen TransGen)

/-- What emission relies on. -/
structure Shapes.Ready (shapes : Shapes) : Prop where
  wellFormed : shapes.WellFormed
  ordered : shapes.Ordered
  acyclic : shapes.Acyclic
  resolved : ∀ id name, shapes.get? id ≠ some (.reference name none)
  literal : ∀ {id members}, shapes.get? id = some (.enumeration members) →
    ∀ m ∈ members, ∃ t, shapes.get? m = some (.terminal t)

/-- **The table of a schema is ready.** -/
theorem ready_lower {s : Schema} {external : Assoc Schema} {layout : Layout} {lowered : Lowered}
    (h : lower s external layout = .ok lowered) :
    lowered.shapes.Ready ∧ lowered.root < lowered.shapes.size := by
  obtain ⟨ho, ha, hroot, hresolved, hregular⟩ :=
    lower_tidy (fun _ => True) (fun _ _ _ _ => trivial) trivial (fun _ _ => trivial) h
  refine ⟨⟨wellFormed_lower h, ho, ha, hresolved, fun hget m hm => ?_⟩, hroot⟩
  obtain ⟨t, ht, -⟩ := hregular hget m hm
  exact ⟨t, ht⟩

/-! ## The bound -/

/-- The number of shapes that are not in progress. -/
def idle (shapes : Shapes) (resolution : ShapeId → Resolution) : Nat :=
  ((Finset.range shapes.size).filter fun id => (resolution id).name? = none).card

theorem idle_le (shapes : Shapes) (resolution : ShapeId → Resolution) :
    idle shapes resolution ≤ shapes.size :=
  (Finset.card_filter_le _ _).trans (Finset.card_range _).le

theorem Later.idle_eq {shapes : Shapes} {rules rules' : Rules}
    {resolution resolution' : ShapeId → Resolution}
    (h : Later rules resolution rules' resolution') :
    idle shapes resolution' = idle shapes resolution := by
  simp only [idle, h.frame]

/-- A definition that is begun is one shape less. -/
theorem idle_begin {shapes : Shapes} {resolution : ShapeId → Resolution} {id : ShapeId}
    (hlt : id < shapes.size) (hid : resolution id = .pending) (name : String) :
    idle shapes (Function.update resolution id (.inProgress name false)) + 1 =
      idle shapes resolution := by
  have hmem : id ∈ (Finset.range shapes.size).filter fun j => (resolution j).name? = none := by
    rw [Finset.mem_filter, hid]
    exact ⟨Finset.mem_range.mpr hlt, rfl⟩
  have herase : ((Finset.range shapes.size).filter fun j =>
      (Function.update resolution id (.inProgress name false) j).name? = none) =
      ((Finset.range shapes.size).filter fun j => (resolution j).name? = none).erase id := by
    ext j
    rw [Finset.mem_erase, Finset.mem_filter, Finset.mem_filter]
    by_cases heq : j = id
    · subst heq
      simp [Resolution.name?]
    · simp [heq]
  rw [idle, herase, Finset.card_erase_add_one hmem, idle]

/-- That one shape less can be entered makes up for a target that comes later. -/
theorem bound_begin {shapes : Shapes} {resolution : ShapeId → Resolution} {id target : ShapeId}
    {fuel : Nat} (hlt : id < shapes.size) (htarget : target < shapes.size)
    (hid : resolution id = .pending) (name : String)
    (hfuel : idle shapes resolution * (shapes.size + 1) + id ≤ fuel) :
    idle shapes (Function.update resolution id (.inProgress name false)) * (shapes.size + 1) +
      target < fuel := by
  rw [← idle_begin hlt hid name, Nat.succ_mul] at hfuel
  calc _ < idle shapes (Function.update resolution id (.inProgress name false)) *
          (shapes.size + 1) + (shapes.size + 1) :=
        Nat.add_lt_add_left (Nat.lt_succ_of_lt htarget) _
    _ ≤ fuel := (Nat.le_add_right _ _).trans hfuel

/-! ## Steps -/

/-- A state of an emission with the names that were given away in it. -/
structure Stage extends Emitter where
  owners : Owners

/-- What holds of the state of an emission. -/
structure Stage.Orderly (shapes : Shapes) (e : Stage) : Prop where
  world : SchemaGrammar.Orderly shapes e.owners e.rules e.resolution
  size : e.resolved.size = shapes.size

/-- What a later state keeps of an earlier one. -/
structure Stage.Later (e e' : Stage) : Prop extends
    SchemaGrammar.Later e.rules e.resolution e'.rules e'.resolution where
  subset : e.owners ⊆ e'.owners

/-- A reference to a shape. -/
abbrev Stage.Cites (shapes : Shapes) (e : Stage) (id : ShapeId) (ref : Body) : Prop :=
  SchemaGrammar.Cites shapes e.owners e.rules e.resolution id ref

/-- A body that can be written. -/
abbrev Emitter.Written (e : Emitter) (b : Body) : Prop :=
  e.rules.Written (GivenAway e.resolution) b

/-- `Succeeds shapes e m post`: from `e`, `m` succeeds in a later orderly state, and its result is
as `post` says. -/
def Succeeds {α : Type} (shapes : Shapes) (e : Stage) (m : EmitM α) (post : Stage → α → Prop) :
    Prop :=
  ∃ a, ∃ e' : Stage, m.run e.toEmitter = (.ok a, e'.toEmitter) ∧ e'.Orderly shapes ∧ e.Later e' ∧
    post e' a

section

variable {α β : Type} {shapes : Shapes} {e e' : Stage} {id : ShapeId} {body ref : Body}

theorem Stage.Later.refl (e : Stage) : e.Later e := ⟨.refl _ _, List.Subset.refl _⟩

theorem Stage.Later.trans {e'' : Stage} (h : e.Later e') (h' : e'.Later e'') : e.Later e'' :=
  ⟨h.toLater.trans h'.toLater, List.Subset.trans h.subset h'.subset⟩

theorem Succeeds.pure (h : e.Orderly shapes) {a : α} {post : Stage → α → Prop} (hp : post e a) :
    Succeeds shapes e (Pure.pure a) post :=
  ⟨a, e, rfl, h, .refl e, hp⟩

theorem Succeeds.bind {m : EmitM α} {f : α → EmitM β} {mid : Stage → α → Prop}
    {post : Stage → β → Prop} (hm : Succeeds shapes e m mid)
    (hf : ∀ a e', e'.Orderly shapes → e.Later e' → mid e' a → Succeeds shapes e' (f a) post) :
    Succeeds shapes e (m >>= f) post := by
  obtain ⟨a, e₁, hrun₁, h₁, hl₁, hmid⟩ := hm
  obtain ⟨b, e₂, hrun₂, h₂, hl₂, hpost⟩ := hf a e₁ h₁ hl₁ hmid
  exact ⟨b, e₂, (run_bind_of_ok hrun₁).trans hrun₂, h₂, hl₁.trans hl₂, hpost⟩

theorem Succeeds.weaken {m : EmitM α} {post post' : Stage → α → Prop}
    (hm : Succeeds shapes e m post) (hp : ∀ e' a, post e' a → post' e' a) :
    Succeeds shapes e m post' := by
  obtain ⟨a, e', hrun, h, hl, hpost⟩ := hm
  exact ⟨a, e', hrun, h, hl, hp e' a hpost⟩

/-- A step on the rules alone that adds rules for leaves and containers. -/
theorem Step.succeeds (h : e.Orderly shapes) {step : StateM Rules α} {new : String → Body → Prop}
    {post : α → Rules → Prop}
    (hs : Step (Rules.Neat (GivenAway e.resolution)) new e.rules step post)
    (hnew : ∀ n b, new n b → Rules.IsPlainName n) :
    Succeeds shapes e (Emitter.onRules step) fun e' a =>
      ∃ rules, e' = { e with rules } ∧ Extends e.rules.entries rules.entries ∧
        rules.Neat (GivenAway e.resolution) ∧ post a rules := by
  obtain ⟨a, rules, hrun, hneat, hg, hpost⟩ := hs
  have hside := hg.weaken fun n b hb => Emitter.not_isDefinitionName_of_isPlainName (hnew n b hb)
  have hfaithful := h.world.faithful.grow hg fun n b hb =>
    (hnew n b hb).leadWord_ne (by decide) (by decide)
  exact ⟨a, { e with rules }, run_onRules hrun,
    ⟨h.world.grow hneat hside (.refl hfaithful), h.size⟩,
    ⟨.of_grows h.world.neat.named hside, List.Subset.refl _⟩, rules, rfl, hg.keeps, hneat, hpost⟩

theorem Rules.PlainRule.isPlainName (n : String) (b : Body) (h : Rules.PlainRule n b) :
    Rules.IsPlainName n :=
  h.1

/-- A body of a shape: it can be written, and is a draft of the shape. -/
structure Stage.Renders (shapes : Shapes) (e : Stage) (id : ShapeId) (body : Body) : Prop where
  isPart : body.IsPart
  known : body.NamesIn (e.rules.Knows (GivenAway e.resolution))
  traces : Traces shapes e.rules e.resolution id body
  drafts : Drafts shapes e.owners e.rules.entries (.node (.shape id)) body

theorem Stage.Renders.written (h : e.Renders shapes id body) : e.Written body :=
  .of_isPart h.isPart h.known

/-- The rule for the body of a shape is a reference to the shape. -/
theorem succeeds_intern (h : e.Orderly shapes) (hb : e.Renders shapes id body) :
    Succeeds shapes e (Emitter.onRules (Rules.intern body none)) fun e' ref =>
      e'.Cites shapes id ref := by
  have hstep : Step (Rules.Neat (GivenAway e.resolution)) (fun n _ => Rules.IsNumbered n) e.rules
      (Rules.intern body none) fun ref rules =>
        Rules.Entered (GivenAway e.resolution) e.rules body none ref rules := by
    obtain ⟨ref, rules, heq, hi⟩ : ∃ ref rules, Rules.intern body none e.rules = (ref, rules) ∧
        Rules.Entered (GivenAway e.resolution) e.rules body none ref rules :=
      Rules.intern_neat h.world.neat hb.written fun _ hn => absurd hn (by simp)
    refine ⟨ref, rules, heq, hi.neat, hi.grows.weaken ?_, hi⟩
    rintro n b ⟨-, hn | ⟨-, hn⟩⟩
    · cases hn
    · exact hn
  refine (hstep.succeeds h fun _ _ => .inr).weaken ?_
  rintro _ ref ⟨rules, rfl, hkeeps, -, hi⟩
  exact ⟨.inl hi.isRule, hi.known,
    fun d other ha hother => hb.traces d other (hi.awaits d ha) hother,
    (hb.drafts.mono (List.Subset.refl _) hkeeps).resolves hi.denotes⟩

/-- A step for each element of a list gives a result for each. -/
theorem succeeds_mapM {γ : Type} {f : γ → EmitM α} {R : Stage → γ → α → Prop}
    (hmono : ∀ {e₁ e₂ c a}, e₁.Orderly shapes → e₁.Later e₂ → R e₁ c a → R e₂ c a)
    {list : List γ} (h : e.Orderly shapes)
    (hf : ∀ c ∈ list, ∀ e₁, e₁.Orderly shapes → e.Later e₁ →
      Succeeds shapes e₁ (f c) fun e' a => R e' c a) :
    Succeeds shapes e (list.mapM f) fun e' results => List.Forall₂ (R e') list results := by
  induction list generalizing e with
  | nil => exact .pure h .nil
  | cons c list ih =>
    obtain ⟨hc, hlist⟩ := List.forall_mem_cons.mp hf
    rw [List.mapM_cons]
    refine (hc e h (.refl e)).bind fun a e₁ h₁ hl₁ ha => ?_
    refine (ih h₁ fun d hd e₂ h₂ hl₂ => hlist d hd e₂ h₂ (hl₁.trans hl₂)).bind
      fun results e₂ h₂ hl₂ hresults => ?_
    exact .pure h₂ (.cons (hmono h₁ hl₂ ha) hresults)

/-! ## Bodies -/

/-- `Settles shapes fuel recur`: a shape is resolved by `recur` if `fuel` is above its bound. -/
def Settles (shapes : Shapes) (fuel : Nat) (recur : ShapeId → EmitM Body) : Prop :=
  ∀ id e, e.Orderly shapes → id < shapes.size →
    idle shapes e.resolution * (shapes.size + 1) + id < fuel →
    Succeeds shapes e (recur id) fun e' ref => e'.Cites shapes id ref

variable {fuel : Nat} {recur : ShapeId → EmitM Body}

/-- The shapes that a shape is made of can be resolved, also later. -/
theorem Settles.parts (hrec : Settles shapes fuel recur) (ho : shapes.Ordered) {shape : Shape}
    (hget : shapes.get? id = some shape)
    (hfuel : idle shapes e.resolution * (shapes.size + 1) + id ≤ fuel) :
    ∀ part ∈ shape.parts, ∀ e₁, e₁.Orderly shapes → e.Later e₁ →
      Succeeds shapes e₁ (recur part) fun e' ref => e'.Cites shapes part ref := by
  intro part hpart e₁ h₁ hl₁
  have hlt := ho.parts hget part hpart
  refine hrec part e₁ h₁ (hlt.trans (Shapes.lt_size_of_get? hget)) ?_
  rw [hl₁.idle_eq]
  exact (Nat.add_lt_add_left hlt _).trans_le hfuel

theorem Stage.Cites.part (h : e.Cites shapes id ref) : ref.IsPart := h.simple.isPart

/-- References to the members of a choice. -/
theorem Settles.members (hrec : Settles shapes fuel recur) (ho : shapes.Ordered) {shape : Shape}
    (hget : shapes.get? id = some shape) (h : e.Orderly shapes)
    (hfuel : idle shapes e.resolution * (shapes.size + 1) + id ≤ fuel) {ids : List ShapeId}
    (hids : ids ⊆ shape.parts) :
    Succeeds shapes e (ids.mapM recur) fun e' refs =>
      List.Forall₂ (fun id ref => e'.Cites shapes id ref) ids refs :=
  succeeds_mapM (R := fun e' id ref => e'.Cites shapes id ref)
    (fun h₁ hl hc => hc.later h₁.world hl.toLater hl.subset) h fun part hpart =>
    hrec.parts ho hget hfuel part (hids hpart)

/-- A choice awaits what its members await. -/
theorem exists_awaits_of_alternation {rules : Rules} {refs : List Body} {d : String}
    (h : rules.Awaits (alternation refs) d) : ∃ ref ∈ refs, rules.Awaits ref d := by
  obtain ⟨hd, n, hn, hpath⟩ := h
  obtain ⟨ref, href, hn⟩ := mem_heads_alternation hn
  exact ⟨ref, href, hd, n, hn, hpath⟩

theorem isPart_of_cites {ids : List ShapeId} {refs : List Body}
    (h : List.Forall₂ (fun id ref => e.Cites shapes id ref) ids refs) : ∀ b ∈ refs, b.IsPart := by
  intro b hb
  obtain ⟨id, -, hc⟩ := exists_mem_left h hb
  exact Stage.Cites.part hc

theorem known_of_cites {ids : List ShapeId} {refs : List Body}
    (h : List.Forall₂ (fun id ref => e.Cites shapes id ref) ids refs) :
    ∀ b ∈ refs, b.NamesIn (e.rules.Knows (GivenAway e.resolution)) := by
  intro b hb
  obtain ⟨id, -, hc⟩ := exists_mem_left h hb
  exact hc.known

theorem resolves_nodeParts {ids : List ShapeId} {refs : List Body}
    (h : List.Forall₂ (fun id ref => e.Cites shapes id ref) ids refs) :
    ∀ p ∈ nodeParts ids refs, Resolves shapes e.owners e.rules.entries p.1 p.2 := by
  intro p hp
  obtain ⟨q, hq, rfl⟩ := List.mem_map.mp hp
  exact ((List.forall₂_iff_zip.mp h).2 hq).resolves

/-- A choice between references is a body of the shapes that have these members. -/
theorem renders_alternation {members : List ShapeId} (hne : members ≠ []) {refs : List Body}
    (hrefs : List.Forall₂ (fun id ref => e.Cites shapes id ref) members refs)
    (hmember : ∀ m ∈ members, ∀ other name, (e.resolution other).name? = some name →
      ReflTransGen shapes.Begins m other → ReflTransGen shapes.Begins id other)
    (hstep : ∀ env w, w ∈ shapes.step env (.shape id) ↔ ∃ m ∈ members, w ∈ env (.shape m)) :
    e.Renders shapes id (alternation refs) := by
  have hne' : refs ≠ [] := fun hnil => hne (List.forall₂_nil_right_iff.mp (hnil ▸ hrefs))
  have hparts := isPart_of_cites hrefs
  refine ⟨isPart_alternation hne' hparts, namesIn_alternation (known_of_cites hrefs),
    fun d other ha hother => ?_, nodeParts members refs, resolves_nodeParts hrefs,
    translates_choice hstep hrefs.length_eq hne hparts⟩
  obtain ⟨ref, href, ha⟩ := exists_awaits_of_alternation ha
  obtain ⟨m, hm, hc⟩ := exists_mem_left hrefs href
  exact hmember m hm other d hother (hc.traces d other ha hother)

/-- What the members of an enumeration or a choice begin with, it begins with: an enumeration has
literals only, which begin with nothing. -/
theorem begins_of_member (hr : shapes.Ready) (h : e.Orderly shapes) {members : List ShapeId}
    (hget : shapes.get? id = some (.enumeration members) ∨
      shapes.get? id = some (.union members)) (m : ShapeId) (hm : m ∈ members) (other : ShapeId)
    (name : String) (hother : (e.resolution other).name? = some name)
    (hpath : ReflTransGen shapes.Begins m other) : ReflTransGen shapes.Begins id other := by
  rcases hget with hget | hget
  · obtain ⟨t, ht⟩ := hr.literal hget m hm
    rcases hpath.cases_head with rfl | ⟨_, hb, -⟩
    · obtain ⟨definition, target, href⟩ := h.world.reference hother
      cases ht.symm.trans href
    · cases hb with
      | target hb => cases ht.symm.trans hb
      | member hb _ => cases ht.symm.trans hb
  · exact .head (.member hget hm) hpath

/-- A body in brackets is a body of the shape that it is a draft of. -/
theorem Rules.Bracketed.renders (hb : Rules.Bracketed (GivenAway e.resolution) e.rules body)
    (hd : Drafts shapes e.owners e.rules.entries (.node (.shape id)) body) :
    e.Renders shapes id body :=
  ⟨hb.isPart, hb.known, .of_grounded fun _ => Rules.not_awaits_of_heads_nil hb.heads, hd⟩

/-- The body of a list. -/
theorem succeeds_renderArray (hrec : Settles shapes fuel recur) (ho : shapes.Ordered)
    (h : e.Orderly shapes) {shape : ArrayShape} (hget : shapes.get? id = some (.array shape))
    (hw : (Shape.array shape).WellFormed)
    (hfuel : idle shapes e.resolution * (shapes.size + 1) + id ≤ fuel) :
    Succeeds shapes e (Emitter.renderArray recur shape) fun e' body =>
      e'.Renders shapes id body := by
  have hsub : shape.leading ⊆ (Shape.array shape).parts := List.subset_append_left _ _
  refine (hrec.members ho hget h hfuel hsub).bind fun leading e₁ h₁ hl₁ hleading => ?_
  refine (hrec.parts ho hget hfuel shape.items (by simp [Shape.parts]) e₁ h₁ hl₁).bind
    fun item e₂ h₂ hl₂ hitem => ?_
  have hleading : List.Forall₂ (fun id ref => e₂.Cites shapes id ref) shape.leading leading :=
    hleading.imp fun _ _ hc => hc.later h₁.world hl₂.toLater hl₂.subset
  have hparts := isPart_of_cites hleading
  have hitemPart := Stage.Cites.part hitem
  refine ((Rules.neat_array h₂.world.neat shape.layout
    (fun b hb => ⟨hparts b hb, known_of_cites hleading b hb⟩) hitemPart hitem.known shape.least
    shape.most).succeeds h₂ Rules.PlainRule.isPlainName).weaken ?_
  rintro _ _ ⟨rules, rfl, hk, hneat, hbody, inner, outer, hblanks, rfl⟩
  obtain ⟨hin, hout⟩ := hblanks.isSegment
  have hrefl := List.Subset.refl e₂.owners
  refine hbody.renders ⟨_, List.forall_mem_append.mpr ⟨hblanks.resolves hneat shapes e₂.owners,
    List.forall_mem_cons.mpr ⟨hitem.resolves.mono hrefl hk, fun p hp =>
      (resolves_nodeParts hleading p hp).mono hrefl hk⟩⟩,
    translates_array hget hin hout hleading.length_eq hparts hitemPart hw.1 hw.2⟩

/-- The members that are written for properties, each with a reference to its value. -/
theorem exists_refs_of_members {properties : List Property} {members : List Member}
    (h : List.Forall₂ (fun p m => ∃ ref, m = ⟨entry (jsonLiteral p.key) ref, p.required⟩ ∧
      e.Cites shapes p.value ref) properties members) :
    ∃ refs, members = memberBodies properties refs ∧
      List.Forall₂ (fun id ref => e.Cites shapes id ref) (properties.map (·.value)) refs := by
  induction h with
  | nil => exact ⟨[], rfl, .nil⟩
  | cons hm _ ih =>
    obtain ⟨ref, rfl, hc⟩ := hm
    obtain ⟨refs, rfl, hrefs⟩ := ih
    exact ⟨ref :: refs, rfl, .cons hc hrefs⟩

/-- The members of an object that are not declared: a key and a reference to the value. -/
structure Stage.Extra (shapes : Shapes) (e : Stage) (additional : Option ShapeId)
    (extra : Option (Body × Body)) : Prop where
  isSome : extra.isSome = additional.isSome
  isPart : ∀ x ∈ extra, x.1.IsPart ∧ x.2.IsPart
  known : ∀ x ∈ extra, (entry x.1 x.2).NamesIn (e.rules.Knows (GivenAway e.resolution))
  resolves : ∀ p ∈ additionalParts additional extra,
    Resolves shapes e.owners e.rules.entries p.1 p.2

theorem succeeds_additional (hrec : Settles shapes fuel recur) (ho : shapes.Ordered)
    {shape : ObjectShape} (hget : shapes.get? id = some (.object shape))
    (hfuel : idle shapes e.resolution * (shapes.size + 1) + id ≤ fuel) {e₁ : Stage}
    (h₁ : e₁.Orderly shapes) (hl₁ : e.Later e₁) :
    Succeeds shapes e₁ (shape.additional.mapM (Emitter.renderAdditional recur)) fun e' additional =>
      ∃ extra, additional = extra.map (fun x => entry x.1 x.2) ∧
        e'.Extra shapes shape.additional extra := by
  cases hadd : shape.additional with
  | none => exact .pure h₁ ⟨none, rfl, rfl, by simp, by simp, by simp [additionalParts]⟩
  | some part =>
    have hpart : part ∈ (Shape.object shape).parts := List.mem_append_right _ (by simp [hadd])
    have hextra : Succeeds shapes e₁ (Emitter.renderAdditional recur part) fun e' x =>
        ∃ key ref, x = entry key ref ∧ e'.Extra shapes (some part) (some (key, ref)) := by
      refine ((Rules.neat_terminal_rule h₁.world.neat (t := .string {}) rfl).succeeds h₁
        Rules.PlainRule.isPlainName).bind ?_
      rintro key _ h₂ hl₂ ⟨rules, rfl, -, hneat, hkey⟩
      refine (hrec.parts ho hget hfuel part hpart _ h₂ (hl₁.trans hl₂)).bind
        fun ref e₃ h₃ hl₃ hc => .pure h₃ ⟨key, ref, rfl, rfl, ?_, ?_, ?_⟩
      · simpa using ⟨hkey.isRule.isPart, Stage.Cites.part hc⟩
      · simpa using namesIn_entry (hl₃.namesIn hkey.grounded.known) hc.known
      · have hstring := hkey.answers.resolves hneat (by simp [Terminal.WellFormed]) shapes e₁.owners
        simpa [additionalParts] using ⟨hstring.mono hl₃.subset hl₃.keeps, hc.resolves⟩
    refine hextra.bind ?_
    rintro _ e₂ h₂ - ⟨key, ref, rfl, hx⟩
    exact .pure h₂ ⟨some (key, ref), rfl, hx⟩

/-- The body of an object. -/
theorem succeeds_renderObject (hrec : Settles shapes fuel recur) (ho : shapes.Ordered)
    (h : e.Orderly shapes) {shape : ObjectShape} (hget : shapes.get? id = some (.object shape))
    (hfuel : idle shapes e.resolution * (shapes.size + 1) + id ≤ fuel) :
    Succeeds shapes e (Emitter.renderObject recur shape) fun e' body =>
      e'.Renders shapes id body := by
  have hproperty : ∀ p ∈ shape.properties, ∀ e₁, e₁.Orderly shapes → e.Later e₁ →
      Succeeds shapes e₁ (Emitter.renderProperty recur p) fun e' m =>
        ∃ ref, m = ⟨entry (jsonLiteral p.key) ref, p.required⟩ ∧ e'.Cites shapes p.value ref := by
    intro p hp e₁ h₁ hl₁
    have hpart : p.value ∈ (Shape.object shape).parts :=
      List.mem_append_left _ (List.mem_map_of_mem hp)
    exact (hrec.parts ho hget hfuel p.value hpart e₁ h₁ hl₁).bind fun ref e₂ h₂ _ hc =>
      .pure h₂ ⟨ref, rfl, hc⟩
  refine (succeeds_mapM (R := fun e' (p : Property) (m : Member) =>
    ∃ ref, m = ⟨entry (jsonLiteral p.key) ref, p.required⟩ ∧ e'.Cites shapes p.value ref)
    (fun h₁ hl ⟨ref, hm, hc⟩ => ⟨ref, hm, hc.later h₁.world hl.toLater hl.subset⟩) h
    hproperty).bind fun members e₁ h₁ hl₁ hmembers => ?_
  obtain ⟨refs, rfl, hrefs⟩ := exists_refs_of_members hmembers
  refine (succeeds_additional hrec ho hget hfuel h₁ hl₁).bind ?_
  rintro _ e₂ h₂ hl₂ ⟨extra, rfl, hextra⟩
  have hrefs : List.Forall₂ (fun id ref => e₂.Cites shapes id ref)
      (shape.properties.map (·.value)) refs :=
    hrefs.imp fun _ _ hc => hc.later h₁.world hl₂.toLater hl₂.subset
  have hparts := isPart_of_cites hrefs
  have hm : ∀ m ∈ memberBodies shape.properties refs, m.entry.IsPart ∧
      m.entry.NamesIn (e₂.rules.Knows (GivenAway e₂.resolution)) := by
    intro m hmem
    refine ⟨isPart_memberBodies hparts m hmem, ?_⟩
    obtain ⟨p, hp, rfl⟩ := List.mem_map.mp hmem
    dsimp only
    exact namesIn_entry (namesIn_jsonLiteral p.1.key)
      (known_of_cites hrefs p.2 (List.of_mem_zip hp).2)
  have ha : ∀ x ∈ extra.map (fun x => entry x.1 x.2), x.IsSegment ∧
      x.NamesIn (e₂.rules.Knows (GivenAway e₂.resolution)) := by
    intro _ hmem
    obtain ⟨x, hx, rfl⟩ := Option.mem_map.mp hmem
    obtain ⟨hkey, hvalue⟩ := hextra.isPart x hx
    exact ⟨(isPart_entry hkey.segment hvalue.segment).segment, hextra.known x hx⟩
  refine ((Rules.neat_object h₂.world.neat shape.layout hm ha).succeeds h₂
    Rules.PlainRule.isPlainName).weaken ?_
  rintro _ _ ⟨rules, rfl, hk, hneat, hbody, inner, outer, hblanks, rfl⟩
  obtain ⟨hin, hout⟩ := hblanks.isSegment
  have hrefl := List.Subset.refl e₂.owners
  have hlen : shape.properties.length = refs.length := by
    simpa using hrefs.length_eq
  exact hbody.renders ⟨_, List.forall_mem_append.mpr ⟨hblanks.resolves hneat shapes e₂.owners,
    List.forall_mem_append.mpr ⟨fun p hp => (hextra.resolves p hp).mono hrefl hk, fun p hp =>
      (resolves_nodeParts hrefs p hp).mono hrefl hk⟩⟩,
    translates_object hget hin hout hlen hparts hextra.isSome hextra.isPart⟩

/-- What a choice between shapes matches. -/
theorem mem_step_of_members {members : List ShapeId}
    (hget : shapes.get? id = some (.enumeration members) ∨ shapes.get? id = some (.union members))
    (env : Node → Language Char) (w : List Char) :
    w ∈ shapes.step env (.shape id) ↔ ∃ m ∈ members, w ∈ env (.shape m) := by
  rcases hget with hget | hget <;> (rw [Shapes.step_of_get? hget]; exact Iff.rfl)

/-- The body of a choice. -/
theorem succeeds_members (hr : shapes.Ready) (hrec : Settles shapes fuel recur)
    (h : e.Orderly shapes) {members : List ShapeId}
    (hget : shapes.get? id = some (.enumeration members) ∨ shapes.get? id = some (.union members))
    (hfuel : idle shapes e.resolution * (shapes.size + 1) + id ≤ fuel) :
    Succeeds shapes e (members.mapM recur) fun e' refs =>
      List.Forall₂ (fun id ref => e'.Cites shapes id ref) members refs ∧ refs ≠ [] ∧
        e'.Renders shapes id (alternation refs) := by
  have hne : members ≠ [] := hget.elim (hr.wellFormed _ _) (hr.wellFormed _ _)
  have hmembers : Succeeds shapes e (members.mapM recur) fun e' refs =>
      List.Forall₂ (fun id ref => e'.Cites shapes id ref) members refs := by
    rcases hget with hget | hget <;>
      exact hrec.members hr.ordered hget h hfuel (List.Subset.refl _)
  obtain ⟨refs, e₁, hrun, h₁, hl₁, hrefs⟩ := hmembers
  exact ⟨refs, e₁, hrun, h₁, hl₁, hrefs,
    fun hnil => hne (List.forall₂_nil_right_iff.mp (hnil ▸ hrefs)),
    renders_alternation hne hrefs (begins_of_member hr h₁ hget) (mem_step_of_members hget)⟩

/-- The body of a shape that is put together from others. -/
theorem succeeds_renderComposite (hr : shapes.Ready) (hrec : Settles shapes fuel recur)
    (h : e.Orderly shapes) (hid : shapes.isComposite id = true)
    (hfuel : idle shapes e.resolution * (shapes.size + 1) + id ≤ fuel) :
    Succeeds shapes e (Emitter.renderWith shapes recur id) fun e' body =>
      e'.Renders shapes id body := by
  unfold Emitter.renderWith
  cases hget : shapes.get? id with
  | none => simp [Shapes.isComposite, hget] at hid
  | some shape =>
    have hw := hr.wellFormed _ _ hget
    cases shape with
    | enumeration members =>
      exact (succeeds_members hr hrec h (.inl hget) hfuel).bind fun _ _ h₁ _ hrefs =>
        .pure h₁ hrefs.2.2
    | union members =>
      exact (succeeds_members hr hrec h (.inr hget) hfuel).bind fun _ _ h₁ _ hrefs =>
        .pure h₁ hrefs.2.2
    | array shape => exact succeeds_renderArray hrec hr.ordered h hget hw hfuel
    | object shape => exact succeeds_renderObject hrec hr.ordered h hget hfuel
    | terminal t => simp [Shapes.isComposite, hget, Shape.isComposite] at hid
    | reference definition target => simp [Shapes.isComposite, hget, Shape.isComposite] at hid
    | anyJson layout => simp [Shapes.isComposite, hget, Shape.isComposite] at hid

/-! ## Definitions -/

/-- `Concludes shapes e id m`: from `e`, `m` succeeds with a reference with which the shape `id` may
be marked as done. -/
def Concludes (shapes : Shapes) (e : Stage) (id : ShapeId) (m : EmitM Body) : Prop :=
  ∃ ref, ∃ e' : Stage, m.run e.toEmitter = (.ok ref, e'.toEmitter) ∧
    SchemaGrammar.Orderly shapes e'.owners e'.rules
      (Function.update e'.resolution id (.done ref)) ∧
    e'.resolved.size = shapes.size ∧
    SchemaGrammar.Later e.rules e.resolution e'.rules
      (Function.update e'.resolution id (.done ref)) ∧
    e.owners ⊆ e'.owners

/-- Marking a shape as done that was not in progress. -/
theorem Later.setDone {rules rules' : Rules} {resolution resolution' : ShapeId → Resolution}
    (hl : Later rules resolution rules' resolution') (hid : (resolution id).name? = none)
    (ref : Body) : Later rules resolution rules' (Function.update resolution' id (.done ref)) where
  keeps := hl.keeps
  taken := hl.taken
  fresh := hl.fresh
  frame j := by
    by_cases heq : j = id
    · subst heq
      rw [Function.update_self, hid]
      rfl
    · rw [Function.update_of_ne heq, hl.frame]
  marks j name hj := by
    have hne : j ≠ id := fun heq => by
      rw [← heq, hj] at hid
      cases hid
    rw [Function.update_of_ne hne, hl.marks j name hj]

theorem Succeeds.concludes {m : EmitM Body} (hid : (e.resolution id).name? = none)
    (hm : Succeeds shapes e m fun e' ref => e'.Cites shapes id ref) :
    Concludes shapes e id m := by
  obtain ⟨ref, e', hrun, h, hl, hc⟩ := hm
  exact ⟨ref, e', hrun, h.world.setDone hc ((hl.frame id).trans hid), h.size,
    hl.toLater.setDone hid ref, hl.subset⟩

/-- Finishing a definition. -/
theorem finishReference_finish (hr : shapes.Ready) (h : e.Orderly shapes) {target : ShapeId}
    {name : String} {referenced : Bool} (hid : e.resolution id = .inProgress name referenced)
    (hbegins : shapes.Begins id target) (hw : e.Written body)
    (ht : Traces shapes e.rules e.resolution target body) :
    ∃ ref rules', (Emitter.finishReference id name body).run e.toEmitter =
        (.ok ref, { e.toEmitter with rules := rules' }) ∧
      Finish e.rules e.resolution id name body ref rules' := by
  have hloop := ht.not_awaits hr.acyclic hbegins (name?_of_inProgress hid)
  rw [Emitter.finishReference, run_get_bind, hid]
  cases referenced with
  | true => exact ⟨_, _, rfl, h.world.finish_bind hid hw hloop⟩
  | false =>
    obtain ⟨ref, rules', heq, hf⟩ := h.world.finish_intern hid hw
    exact ⟨ref, rules', run_onRules heq, hf⟩

/-- A name is taken for a definition, and its body is begun. -/
theorem run_begin (h : e.Orderly shapes) {definition : String} {target : Option ShapeId}
    (hget : shapes.get? id = some (.reference definition target))
    (hid : e.resolution id = .pending) (rest : String → EmitM Body) :
    ∃ name, ∃ e₂ : Stage, (do
        let name ← Emitter.onRules (Rules.takeName definition)
        Emitter.setResolution id (.inProgress name false)
        rest name).run e.toEmitter = (rest name).run e₂.toEmitter ∧
      e₂.Orderly shapes ∧ e₂.owners = e.owners ∧ name ∉ e.rules.taken ∧
      e₂.rules.entries = e.rules.entries ∧ e.rules.taken ⊆ e₂.rules.taken ∧
      e₂.resolution = Function.update e.resolution id (.inProgress name false) := by
  obtain ⟨name, htake, hdef, htaken, hnew⟩ := exists_takeName_eq e.rules definition
  have hres := resolution_setIfInBounds
    (e := { e.toEmitter with rules := { e.rules with taken := name :: e.rules.taken } })
    (h.size ▸ Shapes.lt_size_of_get? hget : id < e.resolved.size) (.inProgress name false)
  refine ⟨name, { e with
    rules := { e.rules with taken := name :: e.rules.taken }
    resolved := e.resolved.setIfInBounds id (.inProgress name false) }, ?_, ⟨?_, ?_⟩, rfl, htaken,
    rfl, List.subset_cons_self _ _, hres⟩
  · rw [run_bind_of_ok (run_onRules htake), run_bind_of_ok (run_setResolution id _)]
  · rw [hres]
    exact h.world.begin hget hid hdef htaken hnew
  · simpa using h.size

/-- **A definition is concluded.** -/
theorem concludes_resolveReference (hr : shapes.Ready) (hrec : Settles shapes fuel recur)
    (h : e.Orderly shapes) {target : ShapeId} {definition : String}
    (hget : shapes.get? id = some (.reference definition (some target)))
    (hid : e.resolution id = .pending)
    (hfuel : idle shapes e.resolution * (shapes.size + 1) + id ≤ fuel) :
    Concludes shapes e id (Emitter.resolveReference shapes recur id definition target) := by
  have hbegins : shapes.Begins id target := .target hget
  have htarget := hr.ordered.targets hget
  obtain ⟨name, e₂, hrun, h₂, howners, htaken, hentries, hsub, hres₂⟩ :=
    run_begin h hget hid fun name => do
      if shapes.isComposite target then
        let reference ← Emitter.finishReference id name (← Emitter.renderWith shapes recur target)
        Emitter.setResolution target (.done reference)
        return reference
      else Emitter.finishReference id name (← recur target)
  have hname₂ : (e₂.resolution id).name? = some name := by
    rw [hres₂, Function.update_self]
    rfl
  have hidle : idle shapes e₂.resolution * (shapes.size + 1) + target < fuel :=
    hres₂ ▸ bound_begin (Shapes.lt_size_of_get? hget) htarget hid name hfuel
  have hprogress : ∀ {e₃ : Stage}, e₂.Later e₃ →
      ∃ referenced, e₃.resolution id = .inProgress name referenced := fun hl =>
    exists_inProgress ((hl.frame id).trans hname₂)
  have hlater : ∀ (e₃ : Stage) {body ref : Body} {rules' : Rules}, e₂.Later e₃ →
      Finish e₃.rules e₃.resolution id name body ref rules' →
      Later e.rules e.resolution rules' (Function.update e₃.resolution id (.done ref)) :=
    fun e₃ _ _ _ hl hf => .of_finish hid htaken hentries hsub (hres₂ ▸ hl.toLater) hf
  unfold Emitter.resolveReference
  rw [Concludes, hrun]
  cases hc : shapes.isComposite target with
  | true =>
    obtain ⟨body, e₃, hrender, h₃, hl₃, hbody⟩ :=
      succeeds_renderComposite hr hrec h₂ hc hidle.le
    obtain ⟨referenced, hid₃⟩ := hprogress hl₃
    obtain ⟨ref, rules', hfinish, hf⟩ :=
      finishReference_finish hr h₃ hid₃ hbegins hbody.written hbody.traces
    obtain ⟨hworld, hcites⟩ :=
      h₃.world.finish hid₃ hf hget hbody.traces hbody.drafts (.inr rfl)
    have hlt : target < e₃.resolved.size := h₃.size ▸ htarget
    have hres := resolution_setIfInBounds (e := { e₃.toEmitter with rules := rules' }) hlt
      (.done ref)
    have hne : target ≠ id := fun heq => by
      rw [heq, Underway.isComposite_eq_false h₂.world.toUnderway hname₂] at hc
      cases hc
    refine ⟨ref,
      { e₃ with rules := rules', resolved := e₃.resolved.setIfInBounds target (.done ref) },
      ?_, ?_, ?_, ?_, howners ▸ hl₃.subset⟩
    · rw [if_pos rfl, run_bind_of_ok hrender, run_bind_of_ok hfinish,
        run_bind_of_ok (run_setResolution target _)]
      rfl
    · show SchemaGrammar.Orderly shapes e₃.owners rules' _
      rw [hres, Function.update_comm hne]
      exact hworld.setDone (hcites rfl) (hworld.name?_eq_none hc)
    · simpa using h₃.size
    · rw [hres, Function.update_comm hne]
      exact (hlater e₃ hl₃ hf).setDone (h.world.name?_eq_none hc) ref
  | false =>
    obtain ⟨body, e₃, hrun₃, h₃, hl₃, hcites⟩ := hrec target e₂ h₂ htarget hidle
    obtain ⟨referenced, hid₃⟩ := hprogress hl₃
    have hw : e₃.Written body := .of_isPart (Stage.Cites.part hcites) hcites.known
    obtain ⟨ref, rules', hfinish, hf⟩ :=
      finishReference_finish hr h₃ hid₃ hbegins hw hcites.traces
    have hd : Drafts shapes e₃.owners e₃.rules.entries (.node (.shape id)) body :=
      hcites.resolves.drafts fun env => Shapes.step_of_get? hget env
    refine ⟨ref, { e₃ with rules := rules' }, ?_,
      (h₃.world.finish hid₃ hf hget hcites.traces hd (.inl rfl)).1, h₃.size, hlater e₃ hl₃ hf,
      howners ▸ hl₃.subset⟩
    rw [if_neg Bool.false_ne_true, run_bind_of_ok hrun₃, hfinish]

/-! ## References -/

/-- A reference to a choice. -/
theorem succeeds_resolveChoice (hr : shapes.Ready) (hrec : Settles shapes fuel recur)
    (h : e.Orderly shapes) {members : List ShapeId}
    (hget : shapes.get? id = some (.enumeration members) ∨ shapes.get? id = some (.union members))
    (hfuel : idle shapes e.resolution * (shapes.size + 1) + id ≤ fuel) :
    Succeeds shapes e (Emitter.resolveChoice recur members) fun e' ref =>
      e'.Cites shapes id ref := by
  refine (succeeds_members hr hrec h hget hfuel).bind fun refs e₁ h₁ _ ⟨hrefs, hne, hbody⟩ => ?_
  rcases alternation_cases hne fun b hb => (isPart_of_cites hrefs b hb).visible with
    ⟨hlen, hmem⟩ | ⟨hlen, -⟩
  · rw [if_pos hlen]
    obtain ⟨m, -, hc⟩ := exists_mem_left hrefs hmem
    exact .pure h₁ ⟨hc.simple, hc.known, hbody.traces, hbody.drafts.resolves (.refl _)⟩
  · rw [if_neg hlen]
    exact succeeds_intern h₁ hbody

/-- **A shape that has not been met before is concluded.** -/
theorem concludes_resolvePending (hr : shapes.Ready) (hrec : Settles shapes fuel recur)
    (h : e.Orderly shapes) (hlt : id < shapes.size) (hid : e.resolution id = .pending)
    (hfuel : idle shapes e.resolution * (shapes.size + 1) + id ≤ fuel) :
    Concludes shapes e id (Emitter.resolvePending shapes recur id) := by
  have hname : (e.resolution id).name? = none := by
    rw [hid]
    rfl
  obtain ⟨shape, hget⟩ : ∃ shape, shapes.get? id = some shape :=
    ⟨_, Array.getElem?_eq_getElem hlt⟩
  have hw := hr.wellFormed _ _ hget
  have hstep := Shapes.step_of_get? hget
  have hcontainer : shapes.isComposite id = true → Concludes shapes e id (do
      Emitter.onRules (Rules.intern (← Emitter.renderWith shapes recur id) none)) := fun hc =>
    Succeeds.concludes hname ((succeeds_renderComposite hr hrec h hc hfuel).bind
      fun _ _ h₁ _ hb => succeeds_intern h₁ hb)
  have hcomposite : shape.isComposite = true → shapes.isComposite id = true := by
    simp [Shapes.isComposite, hget]
  unfold Emitter.resolvePending
  rw [hget]
  cases shape with
  | terminal t =>
    refine Succeeds.concludes hname (((Rules.neat_terminal h.world.neat t).succeeds h
      Rules.PlainRule.isPlainName).weaken ?_)
    rintro _ ref ⟨rules, rfl, -, -, hground, -, href⟩
    exact .of_grounded (href hw.1).1 hground (((href hw.1).2 shapes e.owners).alias hstep)
  | anyJson layout =>
    obtain ⟨ref, rules, hrun, hneat, hg, ⟨hground, hrule⟩, hmeans⟩ :=
      Rules.neat_anyJson h.world.neat (fun _ => h.world.isDefinitionName_of_givenAway) layout
    obtain ⟨owners, hs, hres⟩ := hmeans shapes e.owners h.world.faithful
    exact Succeeds.concludes hname ⟨ref, { e with rules, owners }, run_onRules hrun,
      ⟨h.world.grow hneat hg hs, h.size⟩, ⟨.of_grows h.world.neat.named hg, hs.subset⟩,
      .of_grounded (.inl hrule) hground (hres.alias hstep)⟩
  | reference definition target =>
    cases target with
    | none => exact absurd hget (hr.resolved id definition)
    | some target => exact concludes_resolveReference hr hrec h hget hid hfuel
  | enumeration members =>
    exact (succeeds_resolveChoice hr hrec h (.inl hget) hfuel).concludes hname
  | union members =>
    exact (succeeds_resolveChoice hr hrec h (.inr hget) hfuel).concludes hname
  | array shape => exact hcontainer (hcomposite rfl)
  | object shape => exact hcontainer (hcomposite rfl)

/-- **A shape is resolved**, one level of nesting. -/
theorem settles_resolveWith (hr : shapes.Ready) (hrec : Settles shapes fuel recur) :
    Settles shapes (fuel + 1) (Emitter.resolveWith shapes recur) := by
  intro id e h hlt hfuel
  rw [Succeeds, Emitter.resolveWith, run_get_bind]
  cases hid : e.resolution id with
  | done ref => exact ⟨ref, e, rfl, h, .refl e, h.world.done hid⟩
  | inProgress name referenced =>
    have hres := resolution_setIfInBounds (lt_size_of_name? (name?_of_inProgress hid))
      (.inProgress name true)
    obtain ⟨hl, hworld, hc⟩ := h.world.mark hid
    refine ⟨.rule name, { e with
      resolved := e.resolved.setIfInBounds id (.inProgress name true)
      owners := (name, .shape id) :: e.owners }, rfl, ⟨?_, by simpa using h.size⟩,
      ⟨?_, List.subset_cons_self _ _⟩, ?_⟩
    · rw [hres]
      exact hworld
    · rw [hres]
      exact hl
    · rw [Stage.Cites, hres]
      exact hc
  | pending =>
    obtain ⟨ref, e₁, hrun, hworld, hsize, hl, hsub⟩ :=
      concludes_resolvePending hr hrec h hlt hid (Nat.lt_succ_iff.mp hfuel)
    have hres := resolution_setIfInBounds (hsize ▸ hlt : id < e₁.resolved.size) (.done ref)
    refine ⟨ref, { e₁ with resolved := e₁.resolved.setIfInBounds id (.done ref) }, ?_,
      ⟨?_, by simpa using hsize⟩, ⟨?_, hsub⟩, ?_⟩
    · rw [run_bind_of_ok hrun, run_bind_of_ok (run_setResolution id _)]
      rfl
    · rw [hres]
      exact hworld
    · rw [hres]
      exact hl
    · rw [Stage.Cites, hres]
      exact hworld.done (Function.update_self ..)

/-- **A shape is resolved** if the nesting is allowed to be as deep as its bound, by induction over
the nesting. -/
theorem settles_resolveNested (hr : shapes.Ready) (fuel : Nat) :
    Settles shapes fuel (Emitter.resolveNested shapes fuel) := by
  induction fuel with
  | zero => exact fun id e _ _ hfuel => absurd hfuel (Nat.not_lt_zero _)
  | succ fuel ih => exact settles_resolveWith hr ih

/-! ## Whole shapes -/

/-- No bound is above the one that emission works with. -/
theorem bound_le_fuel (resolution : ShapeId → Resolution) (hlt : id < shapes.size) :
    idle shapes resolution * (shapes.size + 1) + id < Emitter.fuel shapes := by
  calc idle shapes resolution * (shapes.size + 1) + id
      < shapes.size * (shapes.size + 1) + (shapes.size + 1) :=
        Nat.add_lt_add_of_le_of_lt (Nat.mul_le_mul_right _ (idle_le shapes resolution))
          (Nat.lt_succ_of_lt hlt)
    _ = (shapes.size + 1) * (shapes.size + 1) := (Nat.succ_mul _ _).symm
    _ ≤ Emitter.fuel shapes := Nat.le_succ _

/-- **Every shape can be resolved.** -/
theorem succeeds_resolve (hr : shapes.Ready) (h : e.Orderly shapes) (hlt : id < shapes.size) :
    Succeeds shapes e (Emitter.resolve shapes id) fun e' ref => e'.Cites shapes id ref :=
  settles_resolveNested hr _ id e h hlt (bound_le_fuel _ hlt)

/-- The body of a root rule: it can be written and stands for the shape. It is that of a leaf, or
one sequence. -/
structure Stage.IsRoot (shapes : Shapes) (e : Stage) (id : ShapeId) (body : Body) : Prop where
  written : e.Written body
  resolves : Resolves shapes e.owners e.rules.entries (.node (.shape id)) body
  leaf : ∀ {t}, shapes.get? id = some (.terminal t) → e.rules.HasBody body t
  segment : (∀ t, shapes.get? id ≠ some (.terminal t)) → body.IsSegment

/-- **Every shape can be rendered.** -/
theorem succeeds_render (hr : shapes.Ready) (h : e.Orderly shapes) (hlt : id < shapes.size) :
    Succeeds shapes e (Emitter.render shapes id) fun e' body => e'.IsRoot shapes id body := by
  obtain ⟨shape, hget⟩ : ∃ shape, shapes.get? id = some shape :=
    ⟨_, Array.getElem?_eq_getElem hlt⟩
  have hself : (∀ t, shape ≠ .terminal t) → Succeeds shapes e (Emitter.resolve shapes id)
      fun e' body => e'.IsRoot shapes id body := fun hne =>
    (succeeds_resolve hr h hlt).weaken fun _ _ hc =>
      ⟨.of_isPart (Stage.Cites.part hc) hc.known, hc.resolves, fun {t} ht =>
        absurd (Option.some.inj (hget.symm.trans ht)) (hne t), fun _ =>
          (Stage.Cites.part hc).segment⟩
  unfold Emitter.render
  cases hc : shapes.isComposite id with
  | true =>
    exact (succeeds_renderComposite hr (settles_resolveNested hr _) h hc
      (bound_le_fuel _ hlt).le).weaken fun _ _ hb =>
        ⟨hb.written, hb.drafts.resolves (.refl _), fun {t} ht => by
          simp [Shapes.isComposite, ht, Shape.isComposite] at hc, fun _ => hb.isPart.segment⟩
  | false =>
    have hshape : shape.isComposite = false := by
      simpa [Shapes.isComposite, hget] using hc
    unfold Emitter.renderWith
    rw [hget]
    cases shape with
    | terminal t =>
      have hw := (hr.wellFormed _ _ hget).1
      refine ((Rules.neat_terminalBody h.world.neat t).succeeds h fun n b hb => ?_).weaken ?_
      · exact .inl (hb.1.2 ▸ by decide)
      · rintro _ body ⟨rules, rfl, -, hneat, hb⟩
        obtain ⟨hread, hknown, -, hvisible⟩ := hb.spec hneat
        have hd : Drafts shapes e.owners rules.entries (.node (.shape id)) body :=
          (hb.drafts hneat hw shapes e.owners).congr fun env => (Shapes.step_of_get? hget env).symm
        refine ⟨⟨hread, hvisible (.inr hw), hknown⟩, hd.resolves (.refl body), fun {t'} ht => ?_,
          fun hne => absurd hget (hne t)⟩
        cases hget.symm.trans ht
        exact hb
    | reference definition target => exact hself (by simp)
    | anyJson layout => exact hself (by simp)
    | enumeration members => cases hshape
    | union members => cases hshape
    | array shape => cases hshape
    | object shape => cases hshape

/-! ## Between emissions -/

/-- A state in which nothing is in progress. -/
structure Emitter.AtRest (shapes : Shapes) (e : Emitter) : Prop where
  orderly : ∃ owners, Stage.Orderly shapes ⟨e, owners⟩
  rest : ∀ id, (e.resolution id).name? = none

theorem Emitter.AtRest.neat {e : Emitter} (h : e.AtRest shapes) :
    e.rules.Neat (GivenAway e.resolution) :=
  h.orderly.choose_spec.world.neat

/-- A step that succeeds comes to rest again. -/
theorem Emitter.AtRest.later {e : Emitter} (h : e.AtRest shapes) {owners : Owners}
    (ho : e'.Orderly shapes) (hl : Stage.Later ⟨e, owners⟩ e') : e'.toEmitter.AtRest shapes :=
  ⟨⟨e'.owners, ho⟩, fun id => (hl.frame id).trans (h.rest id)⟩

/-- Between emissions, known names are names of rules. -/
theorem Emitter.AtRest.mem_keys {e : Emitter} (h : e.AtRest shapes) {name : String}
    (hk : e.rules.Knows (GivenAway e.resolution) name) : name ∈ Assoc.keys e.rules.entries := by
  refine hk.resolve_right ?_
  rintro ⟨id, hid⟩
  cases (h.rest id).symm.trans (name?_of_inProgress hid)

/-- Between emissions, every name that was given away has its rule. -/
theorem Emitter.AtRest.settled {e : Emitter} (h : e.AtRest shapes) {owners : Owners}
    (ho : Stage.Orderly shapes ⟨e, owners⟩) :
    ∀ o ∈ owners, Settled shapes owners e.rules.entries o.1 o.2 := by
  refine fun o hmem => (ho.world.owners o hmem).resolve_right ?_
  rintro ⟨id, -, hid⟩
  cases (h.rest id).symm.trans (name?_of_inProgress hid)

theorem atRest_start (shapes : Shapes) : (Emitter.start shapes).AtRest shapes := by
  have hnone : ∀ {id name}, ((Emitter.start shapes).resolution id).name? ≠ some name := by
    intro id name
    rw [resolution_start]
    simp [Resolution.name?]
  have hempty : ∀ {name body}, (Emitter.start shapes).rules.entries.get? name ≠ some body := by
    intro name body
    simp [Emitter.start]
  have hneat : (Emitter.start shapes).rules.Neat (GivenAway (Emitter.start shapes).resolution) :=
    { named := ⟨List.nodup_nil, fun h => absurd h hempty, fun _ h => absurd h List.not_mem_nil⟩
      isName := fun h => absurd h hempty
      readable := fun h => absurd h hempty
      closed := fun h => absurd h hempty
      inverse := ⟨fun h => absurd h (by simp [Emitter.start]), fun h =>
        absurd h.choose_spec.1 hempty⟩
      acyclic := fun name hcycle => by
        obtain ⟨_, ⟨_, hget, _⟩, _⟩ := TransGen.head'_iff.mp hcycle
        exact hempty hget
      befits := fun h => absurd h hempty
      given := fun h => absurd (name?_of_inProgress h.choose_spec) hnone }
  refine ⟨⟨[], ⟨⟨fun h => absurd h hnone, fun h => absurd h hnone, fun h => absurd h hnone⟩, hneat,
    ⟨fun h => absurd h List.not_mem_nil, fun _ h => absurd h List.not_mem_nil⟩, fun h => ?_,
    fun _ h => absurd h List.not_mem_nil⟩, by simp [Emitter.start]⟩,
    fun id => by rw [resolution_start]; rfl⟩
  rw [resolution_start] at h
  cases h

/-- **Every shape can be made the root rule.** -/
theorem exists_emit (hr : shapes.Ready) {e : Emitter} (h : e.AtRest shapes)
    (hlt : id < shapes.size) :
    ∃ body, ∃ e' : Stage, (Emitter.emit shapes id).run e = (.ok (), e'.toEmitter) ∧
      e'.toEmitter.AtRest shapes ∧ e'.Orderly shapes ∧ e'.root = some body ∧
      e'.IsRoot shapes id body := by
  obtain ⟨owners, ho⟩ := h.orderly
  obtain ⟨body, e', hrun, ho', hl, hw⟩ := succeeds_render hr ho hlt
  have horderly : Stage.Orderly shapes { e' with root := some body } := ⟨ho'.world, ho'.size⟩
  refine ⟨body, { e' with root := some body }, ?_, ⟨⟨_, horderly⟩, (h.later ho' hl).rest⟩, horderly,
    rfl, hw.written, hw.resolves, hw.leaf, hw.segment⟩
  rw [Emitter.emit, run_bind_of_ok hrun]
  rfl

end

end SchemaGrammar
