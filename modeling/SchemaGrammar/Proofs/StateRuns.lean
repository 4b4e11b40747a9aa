import Mathlib.Data.List.Forall2

/-!
# Runs that change a state

A run that may stop goes from state to state. What is kept along it is said by an invariant and by
how the states grow, and what it gives is said of its last state. A run in several steps is
described by its steps, and so is a run for each element of a list.

## Main definitions

* `Course`: an invariant, and how the states of a run grow.
* `Course.Runs`: what a run does, whether it succeeds or not.

## Main results

* `Course.Runs.bind`, `Course.Runs.mapM`: runs in a row.
-/

namespace SchemaGrammar

section

variable {σ ε α β : Type} {m : ExceptT ε (StateM σ) α} {f : α → ExceptT ε (StateM σ) β} {st st' : σ}

/-- A run of two steps is one of the first and, if that succeeds, one of the second. -/
theorem run_bind_eq (m : ExceptT ε (StateM σ) α) (f : α → ExceptT ε (StateM σ) β) (st : σ) :
    (m >>= f).run st = (ExceptT.bindCont f (m.run st).1).run (m.run st).2 := rfl

/-- A run of two steps that succeeds consists of two runs that do. -/
theorem run_bind_ok {b : β} (h : (m >>= f).run st = (.ok b, st')) :
    ∃ a st₁, m.run st = (.ok a, st₁) ∧ (f a).run st₁ = (.ok b, st') := by
  rw [run_bind_eq] at h
  rcases hm : m.run st with ⟨_ | a, st₁⟩
  · rw [hm] at h
    cases h
  · rw [hm] at h
    exact ⟨a, st₁, rfl, h⟩

/-- A run of two steps that fails does so in the first or, after that, in the second. -/
theorem run_bind_error {e : ε} (h : (m >>= f).run st = (.error e, st')) :
    m.run st = (.error e, st') ∨
      ∃ a st₁, m.run st = (.ok a, st₁) ∧ (f a).run st₁ = (.error e, st') := by
  rw [run_bind_eq] at h
  rcases hm : m.run st with ⟨_ | a, st₁⟩
  · rw [hm] at h
    cases h
    exact .inl rfl
  · rw [hm] at h
    exact .inr ⟨a, st₁, rfl, h⟩

theorem run_bind_of_ok {a : α} (h : m.run st = (.ok a, st')) :
    (m >>= f).run st = (f a).run st' := by
  rw [run_bind_eq, h]
  rfl

theorem run_bind_of_error {e : ε} (h : m.run st = (.error e, st')) :
    (m >>= f).run st = (.error e, st') := by
  rw [run_bind_eq, h]
  rfl

/-- A run that looks at the state first. -/
theorem run_get_bind (f : σ → ExceptT ε (StateM σ) β) :
    (get >>= f : ExceptT ε (StateM σ) β).run st = (f st).run st := rfl

end

/-- What holds of the states of a run, and how they grow. -/
structure Course (σ : Type) where
  inv : σ → Prop
  grows : σ → σ → Prop
  refl : ∀ st, grows st st
  trans : ∀ {st st' st''}, grows st st' → grows st' st'' → grows st st''

namespace Course

/-- If `m` succeeds from `st`, the state has grown and the result is as `post` says; if it fails,
there is a flaw. -/
structure Runs {σ ε α : Type} (P : Course σ) (flaw : ε → σ → Prop) (st : σ)
    (m : ExceptT ε (StateM σ) α) (post : σ → α → Prop) : Prop where
  ok : ∀ {a st'}, m.run st = (.ok a, st') → P.inv st' ∧ P.grows st st' ∧ post st' a
  error : ∀ {e st'}, m.run st = (.error e, st') → flaw e st'

variable {σ ε α β γ : Type} {P : Course σ} {flaw flaw' : ε → σ → Prop} {st : σ}
  {m : ExceptT ε (StateM σ) α} {post : σ → α → Prop}

theorem Runs.pure {a : α} (hst : P.inv st) (h : post st a) : P.Runs flaw st (pure a) post := by
  constructor
  · rintro _ _ ⟨⟩
    exact ⟨hst, P.refl st, h⟩
  · rintro _ _ ⟨⟩

theorem runs_throw {e : ε} (h : flaw e st) : P.Runs flaw st (throw e) post := by
  constructor
  · rintro _ _ ⟨⟩
  · rintro _ _ ⟨⟩
    exact h

theorem runs_lift {result : Except ε α} (hst : P.inv st) (h : ∀ e, result = .error e → flaw e st) :
    P.Runs flaw st (monadLift result) fun st' a => st' = st ∧ result = .ok a := by
  cases result with
  | error e => exact runs_throw (h e rfl)
  | ok a => exact .pure hst ⟨rfl, rfl⟩

theorem Runs.bind {f : α → ExceptT ε (StateM σ) β} {mid : σ → α → Prop} {post : σ → β → Prop}
    (hm : P.Runs flaw st m mid)
    (hf : ∀ a st', P.inv st' → P.grows st st' → mid st' a → P.Runs flaw st' (f a) post) :
    P.Runs flaw st (m >>= f) post := by
  constructor
  · intro b st' hrun
    obtain ⟨a, st₁, hrun₁, hrun₂⟩ := run_bind_ok hrun
    obtain ⟨hst₁, hg₁, hmid⟩ := hm.ok hrun₁
    obtain ⟨hst', hg', hpost⟩ := (hf a st₁ hst₁ hg₁ hmid).ok hrun₂
    exact ⟨hst', P.trans hg₁ hg', hpost⟩
  · intro e st' hrun
    rcases run_bind_error hrun with hrun | ⟨a, st₁, hrun₁, hrun₂⟩
    · exact hm.error hrun
    · obtain ⟨hst₁, hg₁, hmid⟩ := hm.ok hrun₁
      exact (hf a st₁ hst₁ hg₁ hmid).error hrun₂

theorem Runs.weaken {post' : σ → α → Prop} (h : P.Runs flaw st m post)
    (hp : ∀ st' a, P.inv st' → post st' a → post' st' a) : P.Runs flaw st m post' := by
  refine ⟨fun hrun => ?_, h.error⟩
  obtain ⟨hst', hg, hpost⟩ := h.ok hrun
  exact ⟨hst', hg, hp _ _ hst' hpost⟩

theorem Runs.imp_error (h : P.Runs flaw st m post) (hf : ∀ e st', flaw e st' → flaw' e st') :
    P.Runs flaw' st m post :=
  ⟨h.ok, fun hrun => hf _ _ (h.error hrun)⟩

/-- A run for each element of a list. -/
theorem Runs.mapM {f : γ → ExceptT ε (StateM σ) α} {list : List γ} {R : γ → σ → α → Prop}
    (hst : P.inv st)
    (hR : ∀ {st st' x a}, P.inv st' → P.grows st st' → R x st a → R x st' a)
    (h : ∀ x ∈ list, ∀ st', P.inv st' → P.grows st st' → P.Runs flaw st' (f x) (R x)) :
    P.Runs flaw st (list.mapM f) fun st' results =>
      List.Forall₂ (fun x => R x st') list results := by
  induction list generalizing st with
  | nil => exact .pure hst .nil
  | cons x list ih =>
    rw [List.mapM_cons]
    refine (h x List.mem_cons_self st hst (P.refl st)).bind fun a st₁ hst₁ hg₁ ha => ?_
    refine (ih hst₁ fun y hy st₂ hst₂ hg₂ => h y (List.mem_cons_of_mem x hy) st₂ hst₂
      (P.trans hg₁ hg₂)).bind fun results st₂ hst₂ hg₂ hresults => ?_
    exact .pure hst₂ (.cons (hR hst₂ hg₂ ha) hresults)

end Course

end SchemaGrammar
