import SchemaGrammar.Proofs.RequestRuns

/-!
# Answers last

What an emitter has answered once it answers again, whatever it was asked in between, and nothing
changes when it does.

A shape is resolved once. The rule for a leaf is looked up each time, under its own name or, if
another rule has its body, under the name of that one; its own name is then never bound. The bodies
of containers are put together from both. Only the body of a definition may come to stand for
another rule, that of the definition, when the definition is finished; but such a body is a part of
no shape.

## Main definitions

* `Rules.Lasting`, `Emitter.Lasting`: a step that, taken again later, gives the same and changes
  nothing.
* `Emitter.Retains`: what a later state keeps of an earlier one.

## Main results

* `Rules.lasting_terminal`: the rule for a leaf is found again.
* `Emitter.lasting_resolve`, `Emitter.lasting_render`: so are references and bodies.
* `answers_repeat`: runs of requests.
-/

namespace SchemaGrammar

open Grammar

/-! ## Leaves -/

namespace Rules

variable {α β : Type} {given : String → Prop} {r r' : Rules} {t : Terminal} {ref b : Body}

/-- The rule for a leaf is found, under the name of the leaf or another one. -/
theorem terminal_of_text (h : r.Neat given) (ht : t.ruleName?.isSome = true)
    (hbody : ∀ {b}, r.HasBody b t → terminalBody t r = (b, r)) (ha : r.Answers t ref) :
    terminal t r = (ref, r) := by
  obtain ⟨other, found, b, rfl, hget, hb, htext⟩ := ha
  obtain ⟨name, hname⟩ := Option.isSome_iff_exists.mp ht
  have hby : r.byText.get? b.text = some other := h.inverse.mpr ⟨found, hget, htext⟩
  have heq : terminal t r = reserved name (terminalBody t) r := by
    rw [terminal, hname]
  rw [heq]
  by_cases hc : name ∈ Assoc.keys r.entries
  · -- the rule under the name of the leaf has the body of the leaf
    obtain ⟨own, hown⟩ := Assoc.mem_keys_iff.mp hc
    have hsame := (hbody ((h.befits hown).isBody t hname)).symm.trans (hbody hb)
    have hself := h.inverse.mpr ⟨own, hown, congrArg Body.text (Prod.ext_iff.mp hsame).1⟩
    cases hby.symm.trans hself
    exact reserved_of_mem hc _
  · obtain ⟨-, -, -, hvisible⟩ := hb.spec h
    rw [reserved_of_notMem hc (hbody hb), intern_unnamed (hvisible (.inl ht)) (hb.not_isName h)
      (fun _ _ hget => h.isName hget) (fun n hn => (h.named.taken n hn).1), hby]
    rfl

theorem terminalBody_of_hasBody (h : r.Neat given) (hb : r.HasBody b t) :
    terminalBody t r = (b, r) := by
  cases t with
  | string bounds =>
    obtain ⟨name, found, hget, htext, rfl⟩ := hb
    have hchar : stringChar r = (.rule name, r) :=
      terminal_of_text (t := .stringChar) h rfl (fun hb => by rw [show _ = _ from hb]; rfl)
        ⟨name, found, stringCharBody, rfl, hget, rfl, htext⟩
    exact stateM_bind hchar
  | _ => rw [show _ = _ from hb]; rfl

/-- A step that, taken again later, gives the same and changes nothing. -/
def Lasting (m : StateM Rules α) : Prop :=
  ∀ given r, r.Neat given → Step (Neat given) PlainRule r m fun a r₁ =>
    ∀ {given' r'}, r'.Neat given' → Extends r₁.entries r'.entries → m r' = (a, r')

theorem Lasting.pure (a : α) : Lasting (Pure.pure a) := fun _ _ h => .pure h fun _ _ => rfl

theorem Lasting.bind {m : StateM Rules α} {f : α → StateM Rules β} (hm : Lasting m)
    (hf : ∀ a, Lasting (f a)) : Lasting (m >>= f) := by
  intro given r h
  obtain ⟨a, r₁, heq₁, h₁, hg₁, hlast₁⟩ := hm given r h
  obtain ⟨b, r₂, heq₂, h₂, hg₂, hlast₂⟩ := hf a given r₁ h₁
  refine ⟨b, r₂, (stateM_bind heq₁).trans heq₂, h₂, hg₁.trans hg₂, fun h' he => ?_⟩
  exact (stateM_bind (hlast₁ h' (hg₂.keeps.trans he))).trans (hlast₂ h' he)

/-- **The rule for a leaf is found again.** -/
theorem lasting_terminal (t : Terminal) : Lasting (terminal t) := by
  intro given r h
  obtain ⟨ref, r₁, heq, h₁, hg, -, hans, -⟩ := neat_terminal h t
  refine ⟨ref, r₁, heq, h₁, hg, fun {given' r'} h' he => ?_⟩
  cases hn : t.ruleName? with
  | none =>
    have hconst : ∃ b, terminal t = Pure.pure b := by
      rw [terminal, hn]
      cases t with
      | string bounds => cases hn
      | _ => exact ⟨_, rfl⟩
    obtain ⟨b, hconst⟩ := hconst
    rw [hconst] at heq ⊢
    cases heq
    rfl
  | some name =>
    have ht : t.ruleName?.isSome = true := by rw [hn]; rfl
    exact terminal_of_text h' ht (terminalBody_of_hasBody h') ((hans ht).2.mono he)

theorem lasting_terminalBody (t : Terminal) : Lasting (terminalBody t) := by
  cases t with
  | string bounds => exact (lasting_terminal .stringChar).bind fun _ => .pure _
  | _ => exact .pure _

theorem closed_lasting : Closed Lasting where
  pure := .pure
  bind := .bind
  terminal := lasting_terminal

end Rules

namespace Emitter

variable {α β : Type} {shapes : Shapes} {e e' : Emitter} {id : ShapeId} {ref : Body}

/-! ## Shapes that are done -/

/-- A step that leaves the shape `id` done. -/
def Stays (id : ShapeId) (ref : Body) (m : EmitM α) : Prop :=
  ∀ e : Emitter, e.resolution id = .done ref → (m.run e).2.resolution id = .done ref

theorem Stays.bind {m : EmitM α} {f : α → EmitM β} (hm : Stays id ref m)
    (hf : ∀ a, Stays id ref (f a)) : Stays id ref (m >>= f) := by
  intro e h
  have hnext := hm e h
  rcases run_bind_cases m f e with ⟨error, e₁, hrun, hbind⟩ | ⟨a, e₁, hrun, hbind⟩
  · rw [hrun] at hnext
    rw [hbind]
    exact hnext
  · rw [hrun] at hnext
    rw [hbind]
    exact hf a e₁ hnext

theorem stays_onRules (step : StateM Rules α) : Stays id ref (onRules step) := fun _ h => h

theorem closed_stays : Closed (Stays id ref) where
  pure _ _ h := h
  bind := .bind
  throw _ _ h := h
  terminal _ := stays_onRules _
  terminalBody _ := stays_onRules _
  array _ _ _ _ _ := stays_onRules _
  object _ _ _ := stays_onRules _

theorem stays_setResolution {other : ShapeId} (hne : other ≠ id) (r : Resolution) :
    Stays id ref (setResolution other r) := by
  intro e h
  rw [run_setResolution, resolution, Array.getElem?_setIfInBounds_ne hne]
  exact h

theorem stays_finishReference (other : ShapeId) (name : String) (body : Body) :
    Stays id ref (finishReference other name body) := by
  intro e h
  rw [finishReference, run_get_bind]
  split <;> exact stays_onRules _ e h

section

variable {recur : ShapeId → EmitM Body} (hfree : ¬ shapes.IsBody id)
  (hrec : ∀ other, Stays id ref (recur other))

include hfree hrec

/-- A definition marks itself and, if it is put together from others, its body. -/
theorem stays_resolveReference {other target : ShapeId} {definition : String}
    (hget : shapes.get? other = some (.reference definition (some target))) (hne : other ≠ id) :
    Stays id ref (resolveReference shapes recur other definition target) := by
  refine (stays_onRules _).bind fun name => (stays_setResolution hne _).bind fun _ => ?_
  split_ifs with hc
  · have htarget : target ≠ id := fun heq => hfree ⟨heq ▸ hc, other, definition, heq ▸ hget⟩
    refine (closed_stays.renderWith (fun _ part _ => hrec part) fun _ => hrec target).bind
      fun body => (stays_finishReference _ _ _).bind fun reference => ?_
    exact (stays_setResolution htarget _).bind fun _ => closed_stays.pure _
  · exact (hrec target).bind fun _ => stays_finishReference _ _ _

/-- A shape that is done is not resolved again. -/
theorem stays_resolveWith (other : ShapeId) : Stays id ref (resolveWith shapes recur other) := by
  intro e h
  have hne : e.resolution other ≠ .done ref → other ≠ id := fun hother heq =>
    hother (heq ▸ h)
  rw [resolveWith, run_get_bind]
  cases hother : e.resolution other with
  | done reference => exact h
  | inProgress name referenced =>
    exact ((stays_setResolution (hne (by simp [hother])) _).bind fun _ => closed_stays.pure _) e h
  | pending =>
    have hne := hne (by simp [hother])
    have hpending : Stays id ref (resolvePending shapes recur other) :=
      closed_stays.resolvePending (fun _ => stays_onRules _) (fun _ => stays_onRules _) hrec
        fun hget => stays_resolveReference hfree hrec hget hne
    exact (hpending.bind fun _ => (stays_setResolution hne _).bind fun _ => closed_stays.pure _) e h

end

/-- **What is done stays done**, but for the bodies of definitions. -/
theorem stays_resolve (hfree : ¬ shapes.IsBody id) (other : ShapeId) :
    Stays id ref (resolve shapes other) := by
  have hnested : ∀ fuel other, Stays id ref (resolveNested shapes fuel other) := by
    intro fuel
    induction fuel with
    | zero => exact fun _ => closed_stays.throw _
    | succ fuel ih => exact stays_resolveWith hfree ih
  exact hnested _ other

/-! ## Answers -/

/-- What a later state keeps of an earlier one, as far as answers go. -/
structure Retains (shapes : Shapes) (e e' : Emitter) : Prop where
  rules : Extends e.rules.entries e'.rules.entries
  done : ∀ {id ref}, ¬ shapes.IsBody id → e.resolution id = .done ref →
    e'.resolution id = .done ref

theorem Retains.trans {e'' : Emitter} (h : Retains shapes e e') (h' : Retains shapes e' e'') :
    Retains shapes e e'' :=
  ⟨h.rules.trans h'.rules, fun hfree hid => h'.done hfree (h.done hfree hid)⟩

/-- A step that, taken again later, gives the same and changes nothing. -/
def Lasting (shapes : Shapes) (m : EmitM α) : Prop :=
  ∀ e a e₁, e.AtRest shapes → m.run e = (.ok a, e₁) → e₁.AtRest shapes ∧ Retains shapes e e₁ ∧
    ∀ {e'}, e'.AtRest shapes → Retains shapes e₁ e' → m.run e' = (.ok a, e')

theorem lasting_onRules {step : StateM Rules α} (hs : Rules.Lasting step) :
    Lasting shapes (onRules step) := by
  intro e a e₁ h hrun
  obtain ⟨owners, horderly⟩ := h.orderly
  obtain ⟨b, e₂, hrun', ho, hl, rules, rfl, -, -, hlast⟩ :=
    Step.succeeds horderly (hs _ _ h.neat) Rules.PlainRule.isPlainName
  cases hrun'.symm.trans hrun
  exact ⟨h.later ho hl, ⟨hl.keeps, fun _ hid => hid⟩, fun h' hr =>
    run_onRules (hlast h'.neat hr.rules)⟩

theorem closed_lasting : Closed (Lasting shapes) where
  pure a := by
    intro e b e₁ h hrun
    cases hrun
    exact ⟨h, ⟨.refl _, fun _ hid => hid⟩, fun _ _ => rfl⟩
  bind {α β m f} hm hf := by
    intro e b e₂ h hrun
    obtain ⟨a, e₁, hrun₁, hrun₂⟩ := run_bind_ok hrun
    obtain ⟨h₁, hr₁, hlast₁⟩ := hm e a e₁ h hrun₁
    obtain ⟨h₂, hr₂, hlast₂⟩ := hf a e₁ b e₂ h₁ hrun₂
    exact ⟨h₂, hr₁.trans hr₂, fun h' hr => (run_bind_of_ok (hlast₁ h' (hr₂.trans hr))).trans
      (hlast₂ h' hr)⟩
  throw error := by
    intro e a e₁ _ hrun
    cases hrun
  terminal t := lasting_onRules (Rules.lasting_terminal t)
  terminalBody t := lasting_onRules (Rules.lasting_terminalBody t)
  array _ _ _ _ _ := lasting_onRules (Rules.closed_lasting.array _ _ _ _ _)
  object _ _ _ := lasting_onRules (Rules.closed_lasting.object _ _ _)

/-- A shape that has been resolved is done. -/
theorem resolution_of_resolve (hr : shapes.Ready) (h : e.AtRest shapes) (hlt : id < shapes.size)
    (hrun : (resolve shapes id).run e = (.ok ref, e')) : e'.resolution id = .done ref := by
  obtain ⟨owners, horderly⟩ := h.orderly
  have hsize : e'.resolved.size = shapes.size := by
    obtain ⟨found, e₁, hrun', ho, -⟩ := succeeds_resolve hr horderly hlt
    cases hrun'.symm.trans hrun
    exact ho.size
  rw [resolve, fuel, resolveNested, resolveWith, run_get_bind] at hrun
  cases hid : e.resolution id with
  | done reference =>
    rw [hid] at hrun
    cases hrun
    exact hid
  | inProgress name referenced =>
    cases (h.rest id).symm.trans (name?_of_inProgress hid)
  | pending =>
    rw [hid] at hrun
    obtain ⟨reference, e₂, -, hset⟩ := run_bind_ok hrun
    rw [run_bind_of_ok (run_setResolution id _)] at hset
    cases hset
    simp only [Array.size_setIfInBounds] at hsize
    rw [resolution_setIfInBounds (hsize ▸ hlt), Function.update_self]

/-- **A reference lasts**, but for the bodies of definitions. -/
theorem lasting_resolve (hr : shapes.Ready) (hfree : ¬ shapes.IsBody id) :
    Lasting shapes (resolve shapes id) := by
  intro e ref e₁ h hrun
  by_cases hlt : id < shapes.size
  · have hdone := resolution_of_resolve hr h hlt hrun
    obtain ⟨owners, horderly⟩ := h.orderly
    obtain ⟨found, e₂, hrun', ho, hl, -⟩ := succeeds_resolve hr horderly hlt
    cases hrun'.symm.trans hrun
    refine ⟨h.later ho hl, ⟨hl.keeps, fun hfree hid => ?_⟩, fun {e'} _ hretains => ?_⟩
    · have hstays := stays_resolve hfree id e hid
      rwa [hrun] at hstays
    · rw [resolve, fuel, resolveNested, resolveWith, run_get_bind, hretains.done hfree hdone]
      rfl
  · rw [run_resolve_outside hlt h.orderly.choose_spec.size] at hrun
    cases hrun

/-- **The body of a shape lasts**: it is put together from references to its parts. -/
theorem lasting_render (hr : shapes.Ready) (ha : shapes.Apart) (id : ShapeId) :
    Lasting shapes (render shapes id) :=
  closed_lasting.renderWith (fun hget part hpart => lasting_resolve hr (ha.unused hget part hpart))
    fun hc => lasting_resolve hr fun hb => Bool.false_ne_true (hc.symm.trans hb.1)

/-! ## Runs of requests -/

theorem stays_step (hfree : ¬ shapes.IsBody id) (request : Request) :
    Stays id ref (request.step shapes) := by
  have hrender : ∀ other, Stays id ref (render shapes other) := fun other =>
    closed_stays.renderWith (fun _ part _ => stays_resolve hfree part) fun _ =>
      stays_resolve hfree other
  cases request with
  | emit other => exact (hrender other).bind fun _ _ h => h
  | resolve other => exact (stays_resolve hfree other).bind fun _ => closed_stays.pure _
  | render other => exact (hrender other).bind fun _ => closed_stays.pure _
  | terminal t => exact (stays_onRules _).bind fun _ => closed_stays.pure _
  | intern body => exact (stays_onRules _).bind fun _ => closed_stays.pure _

theorem retains_answer (h : e.rules.Named) (request : Request) :
    Retains shapes e (e.answer shapes request) := by
  refine ⟨fun name body hget => ?_, fun hfree hid => stays_step hfree request e hid⟩
  obtain ⟨rest, heq⟩ := (Request.enlarges shapes request e h).2.lead
  rw [answer, ← heq]
  exact Assoc.get?_append_of_mem h.nodup (Assoc.mem_of_get? hget) rest

/-- What the step `m` for the request `call` gives after the requests `before`, it gives again after
`further` ones, and nothing changes. -/
def Repeats (shapes : Shapes) (before further : List Request) (call : Request) (m : EmitM Body) :
    Prop :=
  ∀ ref e, m.run (after shapes before) = (.ok ref, e) →
    m.run (after shapes (before ++ call :: further)) =
      (.ok ref, after shapes (before ++ call :: further))

theorem Lasting.repeats (hr : shapes.Ready) {m : EmitM Body} (hm : Lasting shapes m)
    {before further : List Request} (hown : ∀ request ∈ before ++ further, request.isOwn = true)
    {call : Request} (hcall : call.step shapes = do let _ ← m) :
    Repeats shapes before further call m := by
  intro ref e₁ hrun
  obtain ⟨hbefore, hfurther⟩ := List.forall_mem_append.mp hown
  obtain ⟨h₁, -, hlast⟩ := hm _ _ _ (atRest_after hr hbefore) hrun
  have heq : after shapes (before ++ call :: further) = further.foldl (answer shapes) e₁ := by
    rw [after, List.foldl_append, List.foldl_cons]
    change further.foldl _ ((call.step shapes).run (after shapes before)).2 = _
    rw [hcall, run_drop_snd, hrun]
  have hlater : (further.foldl (answer shapes) e₁).AtRest shapes ∧
      Retains shapes e₁ (further.foldl (answer shapes) e₁) :=
    List.foldlRecOn (motive := fun e => e.AtRest shapes ∧ Retains shapes e₁ e) further _
      ⟨h₁, .refl _, fun _ hid => hid⟩ fun e h request hmem =>
        ⟨h.1.answer hr (hfurther request hmem),
          h.2.trans (retains_answer h.1.neat.named request)⟩
  rw [heq]
  exact hlast hlater.1 hlater.2

end Emitter

/-- **What was answered once is answered again.** If the shapes are those of a schema and all
requests are about them, then the body of a shape, the reference to a shape that is no body of a
definition, and the rule for a leaf are the same whenever they are asked for again, and the state
stays as it is: no rule is added. -/
theorem answers_repeat {s : Schema} {external : Assoc Schema} {layout : Layout} {shapes : Shapes}
    {root : ShapeId} (h : lower s external layout = .ok ⟨shapes, root⟩)
    {before further : List Request}
    (hown : ∀ request ∈ before ++ further, request.isOwn = true) :
    (∀ id, Emitter.Repeats shapes before further (.render id) (Emitter.render shapes id)) ∧
      (∀ id, ¬ shapes.IsBody id →
        Emitter.Repeats shapes before further (.resolve id) (Emitter.resolve shapes id)) ∧
      ∀ t, Emitter.Repeats shapes before further (.terminal t)
        (Emitter.onRules (Rules.terminal t)) := by
  have hr := (ready_lower h).1
  have hapart := (inStyle_and_apart_of_lower h).2
  exact ⟨fun id => (Emitter.lasting_render hr hapart id).repeats hr hown rfl,
    fun id hfree => (Emitter.lasting_resolve hr hfree).repeats hr hown rfl,
    fun t => (Emitter.lasting_onRules (Rules.lasting_terminal t)).repeats hr hown rfl⟩

/-- Requests about events: the document is rendered, then a string and a shape that is not there are
asked for, and the document is rendered again. -/
theorem answers_repeat_eventSchema :
    ∃ shapes root body, lower eventSchema [] ⟨true, 4, 0⟩ = .ok ⟨shapes, root⟩ ∧
      (Emitter.render shapes root).run (Emitter.after shapes
        [.emit root, .render root, .terminal (.string {}), .resolve shapes.size]) =
      (.ok body, Emitter.after shapes
        [.emit root, .render root, .terminal (.string {}), .resolve shapes.size]) := by
  obtain ⟨⟨shapes, root⟩, h⟩ : ∃ lowered, lower eventSchema [] ⟨true, 4, 0⟩ = .ok lowered :=
    eq_ok_of_isOk (by decide +kernel)
  obtain ⟨hr, hroot⟩ := ready_lower h
  have hrest : (Emitter.after shapes [.emit root]).AtRest shapes :=
    Emitter.atRest_after hr (by simp [Request.isOwn])
  obtain ⟨owners, horderly⟩ := hrest.orderly
  obtain ⟨body, e, hrun, -⟩ := succeeds_render hr horderly hroot
  refine ⟨shapes, root, body, h, (@answers_repeat _ _ _ _ _ h [.emit root]
    [.terminal (.string {}), .resolve shapes.size] ?_).1 root body e.toEmitter hrun⟩
  simp [Request.isOwn]

end SchemaGrammar
