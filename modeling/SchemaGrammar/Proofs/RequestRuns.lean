import SchemaGrammar.Proofs.CompactText

/-!
# Runs of requests

An emitter can be asked one thing after the other, and a request that fails leaves it in the state
that it was in when it failed. Whatever is asked, rules are only appended. If the shapes are those
of a schema and no bodies are brought in from outside, the emitter is at rest after each request;
then no two rules have the same body, and the table of texts is the inverse of the rules.

## Main definitions

* `Request`, `Emitter.answer`, `Emitter.after`: requests, and the state after one and after many.
* `Rules.IsInverted`: the rules and the table of texts are inverse to each other.

## Main results

* `Request.enlarges`, `Emitter.AtRest.answer`: what one request does.
* `rules_append_only`: what a run of requests does.
-/

namespace SchemaGrammar

open Grammar

/-- What an emitter can be asked to do. -/
inductive Request where
  | emit (id : ShapeId)
  | resolve (id : ShapeId)
  | render (id : ShapeId)
  | terminal (t : Terminal)
  | intern (body : Body)

/-- Whether a request brings in no body from outside. -/
def Request.isOwn : Request → Bool
  | .intern _ => false
  | _ => true

/-- The step that answers a request. The answer itself is dropped. -/
def Request.step (shapes : Shapes) : Request → EmitM Unit
  | .emit id => Emitter.emit shapes id
  | .resolve id => do let _ ← Emitter.resolve shapes id
  | .render id => do let _ ← Emitter.render shapes id
  | .terminal t => do let _ ← Emitter.onRules (Rules.terminal t)
  | .intern body => do let _ ← Emitter.onRules (Rules.intern body none)

/-- The state after a request, whether it succeeds or fails. -/
def Emitter.answer (shapes : Shapes) (e : Emitter) (request : Request) : Emitter :=
  ((request.step shapes).run e).2

/-- The state after a run of requests. -/
def Emitter.after (shapes : Shapes) (requests : List Request) : Emitter :=
  requests.foldl (Emitter.answer shapes) (Emitter.start shapes)

theorem Emitter.after_append_singleton (shapes : Shapes) (requests : List Request)
    (request : Request) :
    Emitter.after shapes (requests ++ [request]) =
      (Emitter.after shapes requests).answer shapes request := by
  rw [Emitter.after, List.foldl_append]
  rfl

/-- What every request keeps, a run of requests keeps. -/
theorem Emitter.after_induction {shapes : Shapes} {requests : List Request} {inv : Emitter → Prop}
    (hstart : inv (Emitter.start shapes))
    (hanswer : ∀ e, inv e → ∀ request ∈ requests, inv (e.answer shapes request)) :
    inv (Emitter.after shapes requests) :=
  List.foldlRecOn requests _ hstart hanswer

/-! ## Requests only append -/

/-- **A request only appends rules.** -/
theorem Request.enlarges (shapes : Shapes) (request : Request) :
    Emitter.Enlarges (request.step shapes) := by
  cases request with
  | emit id => exact Emitter.enlarges_emit shapes id
  | resolve id => exact (Emitter.enlarges_resolve shapes id).bind fun _ => .pure ()
  | render id => exact (Emitter.enlarges_render shapes id).bind fun _ => .pure ()
  | terminal t => exact (Emitter.enlarges_terminal t).bind fun _ => .pure ()
  | intern body => exact (Emitter.enlarges_intern body).bind fun _ => .pure ()

theorem Emitter.named_after (shapes : Shapes) (requests : List Request) :
    (Emitter.after shapes requests).rules.Named :=
  Emitter.after_induction (atRest_start shapes).neat.named fun e h request _ =>
    (Request.enlarges shapes request e h).1

/-! ## Requests about the shapes of a schema -/

section

variable {α : Type} {shapes : Shapes} {e : Emitter}

/-- Dropping the answer does not change the state. -/
theorem run_drop_snd (m : EmitM α) : ((do let _ ← m : EmitM Unit).run e).2 = (m.run e).2 := by
  rcases run_bind_cases m (fun _ => (pure () : EmitM Unit)) e with
    ⟨error, e₁, hrun, hbind⟩ | ⟨a, e₁, hrun, hbind⟩
  · rw [hbind, hrun]
  · rw [hbind, hrun]
    rfl

/-- A step that succeeds comes to rest again. -/
theorem Emitter.AtRest.run {m : EmitM α} {owners : Owners} {post : Stage → α → Prop}
    (h : e.AtRest shapes) (hm : Succeeds shapes ⟨e, owners⟩ m post) :
    (m.run e).2.AtRest shapes := by
  obtain ⟨a, e', hrun, ho, hl, -⟩ := hm
  rw [hrun]
  exact h.later ho hl

/-- There is no shape outside the table to resolve, and nothing happens. -/
theorem run_resolve_outside {id : ShapeId} (hout : ¬ id < shapes.size)
    (hsize : e.resolved.size = shapes.size) :
    (Emitter.resolve shapes id).run e = (.error (.malformedShapes id), e) := by
  have hpending : e.resolution id = .pending := by
    rw [Emitter.resolution, Array.getElem?_eq_none (hsize ▸ Nat.le_of_not_lt hout)]
    rfl
  rw [Emitter.resolve, Emitter.fuel, Emitter.resolveNested, Emitter.resolveWith, run_get_bind,
    hpending]
  simp only [Emitter.resolvePending, Shapes.get?_eq_none hout]
  rfl

/-- **After a request the emitter is at rest again.** -/
theorem Emitter.AtRest.answer (hr : shapes.Ready) (h : e.AtRest shapes) {request : Request}
    (hown : request.isOwn = true) : (e.answer shapes request).AtRest shapes := by
  obtain ⟨owners, ho⟩ := h.orderly
  unfold Emitter.answer
  cases request with
  | emit id =>
    rw [Request.step]
    by_cases hlt : id < shapes.size
    · obtain ⟨-, e', hrun, hrest, -⟩ := exists_emit hr h hlt
      rw [hrun]
      exact hrest
    · rw [run_emit_outside hlt]
      exact h
  | resolve id =>
    rw [Request.step, run_drop_snd]
    by_cases hlt : id < shapes.size
    · exact h.run (succeeds_resolve hr ho hlt)
    · rw [run_resolve_outside hlt ho.size]
      exact h
  | render id =>
    rw [Request.step, run_drop_snd]
    by_cases hlt : id < shapes.size
    · exact h.run (succeeds_render hr ho hlt)
    · rw [run_render_outside hlt]
      exact h
  | terminal t =>
    rw [Request.step, run_drop_snd]
    exact h.run ((Rules.neat_terminal h.neat t).succeeds ho Rules.PlainRule.isPlainName)
  | intern body => cases hown

theorem Emitter.atRest_after (hr : shapes.Ready) {requests : List Request}
    (hown : ∀ request ∈ requests, request.isOwn = true) :
    (Emitter.after shapes requests).AtRest shapes :=
  Emitter.after_induction (atRest_start shapes) fun _ h request hmem =>
    h.answer hr (hown request hmem)

end

/-! ## Texts and names -/

/-- No two rules have the same body, and the table of texts leads from the text of each body to the
name of its rule. -/
structure Rules.IsInverted (r : Rules) : Prop where
  distinct : (r.entries.map fun rule => rule.2.text).Nodup
  inverse : ∀ text name, r.byText.get? text = some name ↔
    ∃ body, (name, body) ∈ r.entries ∧ body.text = text

theorem Rules.Neat.isInverted {given : String → Prop} {r : Rules} (h : r.Neat given) :
    r.IsInverted := by
  have hmem : ∀ {name body}, (name, body) ∈ r.entries ↔ r.entries.get? name = some body :=
    ⟨Assoc.get?_of_mem h.named.nodup, Assoc.mem_of_get?⟩
  refine ⟨?_, fun text name => h.inverse.trans (exists_congr fun body => and_congr_left' hmem.symm)⟩
  refine List.Nodup.map_on ?_ (List.Nodup.of_map _ h.named.nodup)
  rintro ⟨name, body⟩ hrule ⟨other, found⟩ hother heq
  -- rules of equal text have the name that the text leads to
  have hname := h.inverse.mpr ⟨body, hmem.mp hrule, rfl⟩
  have hfound := h.inverse.mpr ⟨found, hmem.mp hother, heq.symm⟩
  cases hname.symm.trans hfound
  cases (hmem.mp hrule).symm.trans (hmem.mp hother)
  rfl

/-- **The rules are append-only and without duplicates.** Whatever an emitter was asked before, the
next request only appends rules, and no two rules have the same name. If the shapes are those of a
schema and all requests were about them, no two rules have the same body, and the table of texts is
the inverse of the rules. -/
theorem rules_append_only (shapes : Shapes) (requests : List Request) :
    (∀ request, (Emitter.after shapes requests).rules.entries <+:
      (Emitter.after shapes (requests ++ [request])).rules.entries) ∧
    (Assoc.keys (Emitter.after shapes requests).rules.entries).Nodup ∧
    ∀ (s : Schema) (external : Assoc Schema) (layout : Layout) (root : ShapeId),
      lower s external layout = .ok ⟨shapes, root⟩ →
      (∀ request ∈ requests, request.isOwn = true) →
      (Emitter.after shapes requests).rules.IsInverted := by
  have hnamed := Emitter.named_after shapes requests
  refine ⟨fun request => ?_, hnamed.nodup, fun s external layout root h hown => ?_⟩
  · rw [Emitter.after_append_singleton]
    exact (Request.enlarges shapes request _ hnamed).2.lead
  · exact (Emitter.atRest_after (ready_lower h).1 hown).neat.isInverted

/-- Requests about events: the document, a shape that is not there, a string, and the document
again. -/
theorem rules_append_only_eventSchema :
    ∃ shapes root, lower eventSchema [] ⟨true, 4, 0⟩ = .ok ⟨shapes, root⟩ ∧
      (∀ request, (Emitter.after shapes [.emit root, .resolve shapes.size]).rules.entries <+:
        (Emitter.after shapes [.emit root, .resolve shapes.size, request]).rules.entries) ∧
      Rules.IsInverted (Emitter.after shapes
        [.emit root, .resolve shapes.size, .terminal (.string {}), .render root]).rules := by
  obtain ⟨⟨shapes, root⟩, h⟩ : ∃ lowered, lower eventSchema [] ⟨true, 4, 0⟩ = .ok lowered :=
    eq_ok_of_isOk (by decide +kernel)
  refine ⟨shapes, root, h, (rules_append_only shapes [.emit root, .resolve shapes.size]).1, ?_⟩
  refine (rules_append_only shapes _).2.2 eventSchema [] ⟨true, 4, 0⟩ root h ?_
  simp [Request.isOwn]

end SchemaGrammar
