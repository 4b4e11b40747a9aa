import SchemaGrammar.Proofs.EmissionState
import SchemaGrammar.Proofs.GroundedRules

/-!
# What references await during an emission

While shapes are written as rules, a reference may await definitions in progress. The shape that it
is for then begins with them: this is how the steps of the table of shapes and those of the table of
rules are tied together (`Traces`). A definition is finished with a body that awaits only what the
definition begins with, so, if no shape begins with itself, the body does not await the definition
itself, and the rules stay without cycles.

A name that is given away stands for its definition from then on: it is an owner, and it is settled
once the rule is bound.

## Main definitions

* `GivenAway`: the names that are in use and have no rule yet.
* `Traces`, `Cites`: what a body may await, and a reference to a shape.
* `Orderly`: what holds of the rules and of what became of each shape.

## Main results

* `Orderly.begin`, `Orderly.mark`, `Orderly.finish`: the life of a definition.
-/

namespace SchemaGrammar

open Grammar
open Relation (ReflTransGen TransGen)

/-- The names of the definitions in progress that were referred to. -/
def GivenAway (resolution : ShapeId → Resolution) (name : String) : Prop :=
  ∃ id, resolution id = .inProgress name true

/-- The definitions in progress that a body awaits are among those that the shape begins with. -/
def Traces (shapes : Shapes) (rules : Rules) (resolution : ShapeId → Resolution) (id : ShapeId)
    (b : Body) : Prop :=
  ∀ name other, rules.Awaits b name → (resolution other).name? = some name →
    ReflTransGen shapes.Begins id other

/-- A reference to a shape. -/
structure Cites (shapes : Shapes) (owners : Owners) (rules : Rules)
    (resolution : ShapeId → Resolution) (id : ShapeId) (ref : Body) : Prop where
  simple : ref.IsReference
  known : ref.NamesIn (rules.Knows (GivenAway resolution))
  traces : Traces shapes rules resolution id ref
  resolves : Resolves shapes owners rules.entries (.node (.shape id)) ref

/-- An owner that is a definition in progress. -/
def Outstanding (resolution : ShapeId → Resolution) (o : String × Node) : Prop :=
  ∃ id, o.2 = .shape id ∧ resolution id = .inProgress o.1 true

/-- What holds of the rules and of what became of each shape. -/
structure Orderly (shapes : Shapes) (owners : Owners) (rules : Rules)
    (resolution : ShapeId → Resolution) : Prop extends Underway shapes rules resolution where
  neat : rules.Neat (GivenAway resolution)
  faithful : rules.Faithful shapes owners
  done : ∀ {id ref}, resolution id = .done ref → Cites shapes owners rules resolution id ref
  owners : ∀ o ∈ owners, Settled shapes owners rules.entries o.1 o.2 ∨ Outstanding resolution o

section

variable {shapes : Shapes} {owners owners' : Owners} {rules rules' : Rules}
  {resolution resolution' : ShapeId → Resolution} {id target : ShapeId} {name : String}
  {ref body : Body}

theorem Underway.taken_of_givenAway (h : Underway shapes rules resolution)
    (hg : GivenAway resolution name) : name ∈ rules.taken :=
  (h.unbound (name?_of_inProgress hg.choose_spec)).1

theorem Orderly.isDefinitionName_of_givenAway (h : Orderly shapes owners rules resolution)
    (hg : GivenAway resolution name) : IsDefinitionName name :=
  h.neat.named.taken _ (h.taken_of_givenAway hg)

/-- A body that awaits nothing traces every shape. -/
theorem Traces.of_grounded (h : ∀ d, ¬ rules.Awaits body d) :
    Traces shapes rules resolution id body :=
  fun d _ ha => absurd ha (h d)

theorem Cites.of_grounded (hs : ref.IsReference)
    (hg : Rules.Grounded (GivenAway resolution) rules ref)
    (hr : Resolves shapes owners rules.entries (.node (.shape id)) ref) :
    Cites shapes owners rules resolution id ref :=
  ⟨hs, hg.known, .of_grounded hg.awaits, hr⟩

/-! ## Later states -/

/-- What a later state keeps of an earlier one: rules stay, names that were taken are not bound, and
what is in progress stays so. -/
structure Later (rules : Rules) (resolution : ShapeId → Resolution) (rules' : Rules)
    (resolution' : ShapeId → Resolution) : Prop where
  keeps : Extends rules.entries rules'.entries
  taken : rules.taken ⊆ rules'.taken
  fresh : ∀ name ∈ rules.taken, name ∈ Assoc.keys rules'.entries → name ∈ Assoc.keys rules.entries
  frame : ∀ j, (resolution' j).name? = (resolution j).name?
  marks : ∀ j name, resolution j = .inProgress name true → resolution' j = .inProgress name true

theorem Later.refl (rules : Rules) (resolution : ShapeId → Resolution) :
    Later rules resolution rules resolution :=
  ⟨Extends.refl _, List.Subset.refl _, fun _ _ => id, fun _ => rfl, fun _ _ => id⟩

theorem Later.trans {rules'' : Rules} {resolution'' : ShapeId → Resolution}
    (h : Later rules resolution rules' resolution')
    (h' : Later rules' resolution' rules'' resolution'') :
    Later rules resolution rules'' resolution'' where
  keeps := h.keeps.trans h'.keeps
  taken := List.Subset.trans h.taken h'.taken
  fresh name ht hk := h.fresh name ht (h'.fresh name (h.taken ht) hk)
  frame j := (h'.frame j).trans (h.frame j)
  marks j name hj := h'.marks j name (h.marks j name hj)

/-- Rules that are not for definitions are added. -/
theorem Later.of_grows (hn : rules.Named)
    (hg : rules.Grows (fun n _ => ¬ IsDefinitionName n) rules') :
    Later rules resolution rules' resolution where
  keeps := hg.keeps
  taken := hg.taken ▸ List.Subset.refl _
  fresh name ht hk := by
    by_contra hc
    exact hg.notMem_keys hc (fun _ hnew => hnew (hn.taken _ ht)) hk
  frame _ := rfl
  marks _ _ := id

theorem Later.givenAway (hl : Later rules resolution rules' resolution')
    (h : GivenAway resolution name) : GivenAway resolution' name :=
  h.imp fun j hj => hl.marks j name hj

theorem Later.namesIn (hl : Later rules resolution rules' resolution')
    (hb : body.NamesIn (rules.Knows (GivenAway resolution))) :
    body.NamesIn (rules'.Knows (GivenAway resolution')) :=
  hb.mono fun _ hn => hn.mono hl.keeps fun _ => hl.givenAway

/-- What a body traces, it traces later. -/
theorem Traces.later (h : Orderly shapes owners rules resolution)
    (hl : Later rules resolution rules' resolution')
    (hb : body.NamesIn (rules.Knows (GivenAway resolution)))
    (ht : Traces shapes rules resolution id body) : Traces shapes rules' resolution' id body := by
  intro d other ha hother
  have ha' := h.neat.awaits_of_extends hl.keeps
    (fun n hn hk => hl.fresh n (h.taken_of_givenAway hn) hk) hb ha
  exact ht d other ha' (hl.frame other ▸ hother)

theorem Cites.later (h : Orderly shapes owners rules resolution)
    (hl : Later rules resolution rules' resolution') (ho : owners ⊆ owners')
    (hc : Cites shapes owners rules resolution id ref) :
    Cites shapes owners' rules' resolution' id ref :=
  ⟨hc.simple, hl.namesIn hc.known, hc.traces.later h hl hc.known, hc.resolves.mono ho hl.keeps⟩

/-- Rules that are not for definitions may be added. -/
theorem Orderly.grow (h : Orderly shapes owners rules resolution)
    (hn : rules'.Neat (GivenAway resolution))
    (hg : rules.Grows (fun n _ => ¬ IsDefinitionName n) rules')
    (hs : Rules.Settling shapes owners owners' rules') :
    Orderly shapes owners' rules' resolution where
  toUnderway := by
    have hl : Later rules resolution rules' resolution := .of_grows h.neat.named hg
    exact h.toUnderway.grow hl.taken hl.fresh
  neat := hn
  faithful := hs.faithful
  done hid := (h.done hid).later h (.of_grows h.neat.named hg) hs.subset
  owners o ho := by
    rcases hs.settled o ho with ho | hset
    · exact (h.owners o ho).imp_left (·.mono hs.subset hg.keeps)
    · exact .inl hset

/-! ## Shapes that are done -/

/-- A shape that is not in progress is given another resolution that gives no name away. -/
theorem givenAway_update (hid : (resolution id).name? = none) {r : Resolution}
    (hr : ∀ n, r ≠ .inProgress n true) :
    GivenAway (Function.update resolution id r) = GivenAway resolution := by
  funext n
  refine propext ⟨fun ⟨j, hj⟩ => ⟨j, ?_⟩, fun ⟨j, hj⟩ => ⟨j, ?_⟩⟩
  · have hne : j ≠ id := fun heq => by
      rw [heq, Function.update_self] at hj
      exact hr n hj
    rwa [Function.update_of_ne hne] at hj
  · have hne : j ≠ id := fun heq => by
      rw [← heq, hj] at hid
      cases hid
    rwa [Function.update_of_ne hne]

theorem Outstanding.update {o : String × Node} (h : Outstanding resolution o)
    (hid : (resolution id).name? = none) (r : Resolution) :
    Outstanding (Function.update resolution id r) o := by
  obtain ⟨j, hj, hprogress⟩ := h
  refine ⟨j, hj, ?_⟩
  rw [Function.update_of_ne, hprogress]
  rintro rfl
  rw [hprogress] at hid
  cases hid

/-- A shape that has a reference is done. -/
theorem Orderly.setDone (h : Orderly shapes owners rules resolution)
    (hc : Cites shapes owners rules resolution id ref) (hid : (resolution id).name? = none) :
    Orderly shapes owners rules (Function.update resolution id (.done ref)) := by
  have hgiven := givenAway_update hid (r := .done ref) (by simp)
  have hcites : ∀ {j ref'}, Cites shapes owners rules resolution j ref' →
      Cites shapes owners rules (Function.update resolution id (.done ref)) j ref' := fun hj =>
    ⟨hj.simple, hgiven ▸ hj.known, fun d other ha hother =>
      hj.traces d other ha (name?_update_done hother).2, hj.resolves⟩
  refine ⟨h.toUnderway.setDone id ref, hgiven ▸ h.neat, h.faithful, fun {j ref'} hj => ?_,
    fun o ho => (h.owners o ho).imp_right (·.update hid _)⟩
  by_cases heq : j = id
  · subst heq
    rw [Function.update_self] at hj
    cases hj
    exact hcites hc
  · rw [Function.update_of_ne heq] at hj
    exact hcites (h.done hj)

/-! ## The life of a definition -/

theorem Rules.Neat.takeName {given : String → Prop} (h : rules.Neat given)
    (hdef : IsDefinitionName name) :
    Rules.Neat given { rules with taken := name :: rules.taken } :=
  h.retake ⟨h.named.nodup, fun hget => (h.named.kind hget).takeName name,
    List.forall_mem_cons.mpr ⟨hdef, h.named.taken⟩⟩

/-- A definition is begun under a new name, which nothing awaits. -/
theorem Orderly.begin (h : Orderly shapes owners rules resolution) {definition : String}
    {target : Option ShapeId} (hget : shapes.get? id = some (.reference definition target))
    (hid : resolution id = .pending) (hdef : IsDefinitionName name) (htaken : name ∉ rules.taken)
    (hnew : name ∉ Assoc.keys rules.entries) :
    Orderly shapes owners { rules with taken := name :: rules.taken }
      (Function.update resolution id (.inProgress name false)) := by
  have hname : (resolution id).name? = none := by
    rw [hid]
    rfl
  have hgiven := givenAway_update hname (r := .inProgress name false) (by simp)
  refine ⟨h.toUnderway.begin hget htaken hnew, hgiven ▸ h.neat.takeName hdef,
    ⟨h.faithful.line, h.faithful.json⟩, fun {j ref} hj => ?_,
    fun o ho => (h.owners o ho).imp_right (·.update hname _)⟩
  have hne : j ≠ id := fun heq => by
    rw [heq, Function.update_self] at hj
    cases hj
  rw [Function.update_of_ne hne] at hj
  have hc := h.done hj
  refine ⟨hc.simple, hgiven ▸ hc.known, fun d other ha hother => ?_, hc.resolves⟩
  have ha : rules.Awaits ref d := ha
  by_cases heq : other = id
  · subst heq
    rw [Function.update_self] at hother
    cases hother
    exact absurd (h.taken_of_givenAway (h.neat.given_of_awaits hc.known ha)) htaken
  · rw [Function.update_of_ne heq] at hother
    exact hc.traces d other ha hother

/-- A definition in progress is referred to: its name is given away. -/
theorem Orderly.mark (h : Orderly shapes owners rules resolution) {referenced : Bool}
    (hid : resolution id = .inProgress name referenced) :
    Later rules resolution rules (Function.update resolution id (.inProgress name true)) ∧
      Orderly shapes ((name, .shape id) :: owners) rules
        (Function.update resolution id (.inProgress name true)) ∧
      Cites shapes ((name, .shape id) :: owners) rules
        (Function.update resolution id (.inProgress name true)) id (.rule name) := by
  have hsub : owners ⊆ (name, .shape id) :: owners := List.subset_cons_self _ _
  obtain ⟨htaken, hnew⟩ := h.unbound (name?_of_inProgress hid)
  have hl :
      Later rules resolution rules (Function.update resolution id (.inProgress name true)) := by
    refine ⟨Extends.refl _, List.Subset.refl _, fun _ _ hk => hk, name?_update_mark hid,
      fun j n hj => ?_⟩
    by_cases heq : j = id
    · subst heq
      rw [hid] at hj
      cases hj
      exact Function.update_self ..
    · rw [Function.update_of_ne heq, hj]
  have hunder := h.toUnderway.mark hid
  refine ⟨hl, ⟨hunder, ?_, h.faithful.mono hsub, fun {j ref} hj => ?_, fun o ho => ?_⟩, ?_, ?_, ?_,
    .owner List.mem_cons_self⟩
  · refine h.neat.regive (fun n hn => .inr (hl.givenAway hn)) fun n hn hplain => ?_
    exact Emitter.not_isDefinitionName_of_isPlainName hplain
      (h.neat.named.taken _ (hunder.taken_of_givenAway hn))
  · have hne : j ≠ id := fun heq => by
      rw [heq, Function.update_self] at hj
      cases hj
    rw [Function.update_of_ne hne] at hj
    exact (h.done hj).later h hl hsub
  · rcases List.mem_cons.mp ho with rfl | ho
    · exact .inr ⟨id, rfl, Function.update_self ..⟩
    · exact (h.owners o ho).imp (·.mono hsub (Extends.refl _)) fun ⟨j, hj, hprogress⟩ =>
        ⟨j, hj, hl.marks j _ hprogress⟩
  · exact isReference_rule (h.neat.named.taken _ htaken).1
  · exact namesIn_rule (.inr ⟨id, Function.update_self ..⟩)
  · -- the name has no rule, so nothing but the name itself is awaited
    rintro d other ⟨-, n, hn, hpath⟩ hother
    cases List.mem_singleton.mp hn
    rcases hpath.cases_head with rfl | ⟨_, ⟨found, hfound, -⟩, -⟩
    · rw [hunder.distinct hother (name?_of_inProgress (Function.update_self ..))]
    · exact absurd (Assoc.mem_keys_iff.mpr ⟨found, hfound⟩) hnew

/-- What finishing a definition gives: a reference that denotes its body and awaits no more, in a
table where at most the name of the definition was bound. -/
structure Finish (rules : Rules) (resolution : ShapeId → Resolution) (id : ShapeId) (name : String)
    (body ref : Body) (rules' : Rules) : Prop where
  neat : rules'.Neat (GivenAway (Function.update resolution id (.done ref)))
  grows : rules.Grows (fun other _ => other = name) rules'
  simple : ref.IsReference
  known : ref.NamesIn (rules'.Knows (GivenAway (Function.update resolution id (.done ref))))
  bound : resolution id = .inProgress name true →
    ∃ found, rules'.entries.get? name = some found ∧ Denotes rules'.entries found body
  denotes : Denotes rules'.entries ref body
  awaits : ∀ d, rules'.Awaits ref d → rules.Awaits body d
  old : ∀ {b d}, b.NamesIn (rules.Knows (GivenAway resolution)) → rules'.Awaits b d →
    rules.Awaits b d ∨ rules.Awaits b name ∧ rules.Awaits body d

/-- What is kept from before a definition was begun until it is finished. -/
theorem Later.of_finish {rules₂ rules₃ : Rules} {resolution₃ : ShapeId → Resolution}
    (hid : resolution id = .pending) (htaken : name ∉ rules.taken)
    (hentries : rules₂.entries = rules.entries) (hsub : rules.taken ⊆ rules₂.taken)
    (hl : Later rules₂ (Function.update resolution id (.inProgress name false)) rules₃ resolution₃)
    (hf : Finish rules₃ resolution₃ id name body ref rules') :
    Later rules resolution rules' (Function.update resolution₃ id (.done ref)) := by
  refine ⟨?_, ?_, fun n hn hk => ?_, fun j => ?_, fun j n hj => ?_⟩
  · rw [← hentries]
    exact hl.keeps.trans hf.grows.keeps
  · rw [hf.grows.taken]
    exact List.Subset.trans hsub hl.taken
  · have hne : n ≠ name := fun heq => htaken (heq ▸ hn)
    have hk₃ : n ∈ Assoc.keys rules₃.entries := by
      by_contra hc
      exact hf.grows.notMem_keys hc (fun _ => hne) hk
    rw [← hentries]
    exact hl.fresh n (hsub hn) hk₃
  · by_cases heq : j = id
    · subst heq
      rw [Function.update_self, hid]
      rfl
    · rw [Function.update_of_ne heq, hl.frame, Function.update_of_ne heq]
  · have hne : j ≠ id := fun heq => by
      rw [heq, hid] at hj
      cases hj
    rw [Function.update_of_ne hne]
    refine hl.marks j n ?_
    rw [Function.update_of_ne hne, hj]

/-- Of the names given away, only that of the finished definition may have been bound. -/
theorem knows_of_finish (he : Extends rules.entries rules'.entries)
    (hbound : resolution id = .inProgress name true → name ∈ Assoc.keys rules'.entries)
    (hid : (resolution id).name? = some name) (ref : Body) {n : String}
    (hn : rules.Knows (GivenAway resolution) n) :
    rules'.Knows (GivenAway (Function.update resolution id (.done ref))) n := by
  rcases hn with hk | ⟨j, hj⟩
  · obtain ⟨found, hget⟩ := Assoc.mem_keys_iff.mp hk
    exact .inl (Assoc.mem_keys_iff.mpr ⟨found, he _ _ hget⟩)
  · by_cases heq : j = id
    · subst heq
      rw [hj] at hid
      cases hid
      exact .inl (hbound hj)
    · exact .inr ⟨j, by rw [Function.update_of_ne heq, hj]⟩

theorem givenAway_of_update_done {n : String}
    (h : GivenAway (Function.update resolution id (.done ref)) n) : GivenAway resolution n := by
  obtain ⟨j, hj⟩ := h
  have hne : j ≠ id := fun heq => by
    rw [heq, Function.update_self] at hj
    cases hj
  exact ⟨j, by rwa [Function.update_of_ne hne] at hj⟩

/-- A definition that was referred to keeps its name. -/
theorem Orderly.finish_bind (h : Orderly shapes owners rules resolution)
    (hid : resolution id = .inProgress name true)
    (hw : rules.Written (GivenAway resolution) body) (hloop : ¬ rules.Awaits body name) :
    Finish rules resolution id name body (.rule name)
      (rules.bind name (rules.aliasOf (rules.size + 1) body)) := by
  obtain ⟨htaken, hnew⟩ := h.unbound (name?_of_inProgress hid)
  have hdef := h.neat.named.taken _ htaken
  have halias := h.neat.aliasOf hw.readable hw.known
  set found := rules.aliasOf (rules.size + 1) body
  have hres := Rules.not_isReservedName_of_isDefinitionName hdef
  have hbound : name ∈ Assoc.keys (rules.bind name found).entries :=
    Assoc.mem_keys_insert.mpr (.inl rfl)
  have hneat : (rules.bind name found).Neat (GivenAway resolution) :=
    h.neat.bind hnew hdef.1 (.inr (.inr (.inr htaken))) halias.readable halias.known halias.unbound
      (fun ha => hloop (halias.awaits _ ha)) (Rules.befits_of_not_reserved hres found)
  have hden := halias.denotes.mono (Rules.extends_bind found hnew)
  exact
    { neat := hneat.regive
        (fun n hn => knows_of_finish (Extends.refl _) (fun _ => hbound) (name?_of_inProgress hid) _
          (.inr hn)) fun n hn => h.neat.given (givenAway_of_update_done hn)
      grows := (Rules.grows_bind found hnew).weaken fun _ _ hb => hb.1
      simple := isReference_rule hdef.1
      known := namesIn_rule (.inl hbound)
      bound := fun _ => ⟨found, Rules.get?_bind_self, hden⟩
      denotes := .of_get? Rules.get?_bind_self hden
      awaits := fun d ha => halias.awaits d (Rules.awaits_bind_self hnew ha)
      old := fun _ ha => (Rules.awaits_bind hnew ha).imp_right fun ha =>
        ⟨ha.1, halias.awaits _ ha.2⟩ }

/-- A definition that was not referred to may share a rule. -/
theorem Orderly.finish_intern (h : Orderly shapes owners rules resolution)
    (hid : resolution id = .inProgress name false)
    (hw : rules.Written (GivenAway resolution) body) :
    ∃ ref rules', Rules.intern body (some name) rules = (ref, rules') ∧
      Finish rules resolution id name body ref rules' := by
  have hname := name?_of_inProgress hid
  obtain ⟨htaken, hnew⟩ := h.unbound hname
  have hdef := h.neat.named.taken _ htaken
  have hunused : ¬ GivenAway resolution name := by
    rintro ⟨j, hj⟩
    rw [h.distinct (name?_of_inProgress hj) hname, hid] at hj
    cases hj
  have hres := Rules.not_isReservedName_of_isDefinitionName hdef
  obtain ⟨ref, rules', heq, hi⟩ : ∃ ref rules',
      Rules.intern body (some name) rules = (ref, rules') ∧
      Rules.Entered (GivenAway resolution) rules body (some name) ref rules' := by
    refine Rules.intern_neat h.neat hw ?_
    rintro _ ⟨⟩
    exact ⟨hnew, hdef.1, .inr (.inr (.inr htaken)), hunused,
      Rules.befits_of_not_reserved hres body⟩
  have hg : rules.Grows (fun other _ => other = name) rules' := by
    refine hi.grows.weaken ?_
    rintro n b ⟨-, hn | ⟨hn, -⟩⟩
    · exact (Option.some.inj hn).symm
    · cases hn
  have hnot : resolution id ≠ .inProgress name true := fun hid' => by
    rw [hid] at hid'
    cases hid'
  have hknows : ∀ n, rules'.Knows (GivenAway resolution) n →
      rules'.Knows (GivenAway (Function.update resolution id (.done ref))) n := fun n hn =>
    knows_of_finish (Extends.refl _) (fun hid' => absurd hid' hnot) hname ref hn
  exact ⟨ref, rules', heq,
    { neat := hi.neat.regive (fun n hn => hknows n (.inr hn)) fun n hn =>
        h.neat.given (givenAway_of_update_done hn)
      grows := hg
      simple := .inl hi.isRule
      known := hi.known.mono hknows
      bound := fun hid' => absurd hid' hnot
      denotes := hi.denotes
      awaits := hi.awaits
      old := fun hb ha => .inl (h.neat.awaits_of_extends hg.keeps (fun n hn hk => by
        by_contra hc
        exact hg.notMem_keys hc (fun _ heq => hunused (heq ▸ hn)) hk) hb ha) }⟩

/-- **A definition is finished** with a body that traces what it stands for, and is a draft of the
definition or of its target. -/
theorem Orderly.finish (h : Orderly shapes owners rules resolution) {referenced : Bool}
    (hid : resolution id = .inProgress name referenced)
    (hf : Finish rules resolution id name body ref rules') {definition : String}
    (hget : shapes.get? id = some (.reference definition (some target)))
    (ht : Traces shapes rules resolution target body) {n : Node}
    (hd : Drafts shapes owners rules.entries (.node n) body)
    (hn : n = .shape id ∨ n = .shape target) :
    Orderly shapes owners rules' (Function.update resolution id (.done ref)) ∧
      (n = .shape target →
        Cites shapes owners rules' (Function.update resolution id (.done ref)) target ref) := by
  have hsub := List.Subset.refl owners
  have hname := name?_of_inProgress hid
  have hbegins : shapes.Begins id target := .target hget
  have hstep : ∀ env, shapes.step env (.shape id) = env (.shape target) := fun env =>
    Shapes.step_of_get? hget env
  have hd' := hd.mono hsub hf.grows.keeps
  have hres := hd'.resolves hf.denotes
  have hself : Resolves shapes owners rules'.entries (.node (.shape id)) ref := by
    rcases hn with rfl | rfl
    · exact hres
    · exact hres.alias hstep
  have htraces : Traces shapes rules' (Function.update resolution id (.done ref)) target ref :=
    fun d other ha hother => ht d other (hf.awaits d ha) (name?_update_done hother).2
  refine ⟨⟨?_, hf.neat, h.faithful.grow hf.grows ?_, fun {j ref'} hj => ?_, fun o ho => ?_⟩,
    fun htarget => ⟨hf.simple, hf.known, htraces, htarget ▸ hres⟩⟩
  · refine h.toUnderway.finish hname hf.grows.taken (fun other _ hk => ?_) ref
    by_contra hc
    rw [not_or] at hc
    exact hf.grows.notMem_keys hc.1 (fun _ => hc.2) hk
  · rintro _ - rfl
    rw [(h.neat.named.taken _ (h.unbound hname).1).2]
    decide
  · by_cases heq : j = id
    · subst heq
      rw [Function.update_self] at hj
      cases hj
      exact ⟨hf.simple, hf.known, fun d other ha hother =>
        .head hbegins (htraces d other ha hother), hself⟩
    · rw [Function.update_of_ne heq] at hj
      have hc := h.done hj
      have hbound : resolution id = .inProgress name true → name ∈ Assoc.keys rules'.entries :=
        fun hp => Assoc.mem_keys_iff.mpr ((hf.bound hp).imp fun _ hfound => hfound.1)
      refine ⟨hc.simple, hc.known.mono fun n hn =>
        knows_of_finish hf.grows.keeps hbound hname ref hn, fun d other ha hother => ?_,
        hc.resolves.mono hsub hf.grows.keeps⟩
      have hother := (name?_update_done hother).2
      rcases hf.old hc.known ha with hold | ⟨hto, hfrom⟩
      · exact hc.traces d other hold hother
      · -- what awaited the definition begins with it, and so with what its body traces
        exact (hc.traces name id hto hname).trans (.head hbegins (ht d other hfrom hother))
  · rcases h.owners o ho with hold | ⟨j, hj, hprogress⟩
    · exact .inl (hold.mono hsub hf.grows.keeps)
    · by_cases heq : j = id
      · -- the name was given away, so it is bound now
        subst heq
        rw [hprogress] at hname
        cases hname
        obtain ⟨found, hfound, hden⟩ := hf.bound hprogress
        rw [hj]
        refine .inl ⟨n, found, body, hn.imp_right ?_, hfound, hden, hd'⟩
        rintro rfl
        exact hstep
      · exact .inr ⟨j, hj, by rw [Function.update_of_ne heq, hprogress]⟩

/-- The body of a definition does not await it, if no shape begins with itself. -/
theorem Traces.not_awaits (hacyclic : shapes.Acyclic) (hbegins : shapes.Begins id target)
    (hid : (resolution id).name? = some name) (ht : Traces shapes rules resolution target body) :
    ¬ rules.Awaits body name :=
  fun ha => hacyclic id (.head' hbegins (ht name id ha hid))

end

end SchemaGrammar
