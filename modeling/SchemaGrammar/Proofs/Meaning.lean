import SchemaGrammar.Proofs.ContainerBody

/-!
# What references mean

A grammar is right for a table of shapes if every reference in it stands for the right language.
Whether a single reference does cannot be seen locally: a rule may refer to itself, and one rule
may serve several shapes. What can be seen locally is how a reference came about. This module says
what has to be seen, and draws the global conclusion once.

## Certificates

* A reference **denotes** a body if it is that body, or the name of a rule whose body denotes it
  (`Denotes`). Sharing a rule and giving a rule another name are of this kind.
* A body **translates** a goal if its language is that of the goal whenever the references in it
  stand for the goal's parts (`Translates`). This is checked for every construct by itself, for
  all languages of the parts.
* A reference **resolves** a goal if it denotes a body that translates the goal, and the references
  in the body resolve the parts (`Resolves`). A name that was given away before its rule was known
  resolves its node by decree: it is an *owner*, and owners are *settled* when their rule is there.

## The conclusion

Two fixpoints meet here: derivable words are the least solution of the rules, and the language of
shapes is the least solution of the shape equations. If all owners are settled, every reference
that resolves a goal has exactly the goal's language (`Resolves.language_eq`). For each direction
the other side's candidate solution is read off the certificates: the largest assignment of words
to names that keeps all promises is closed under the rules, and the words that all references to a
node share are closed under the shape equations.

## Main definitions

* `Goal`: what a reference may stand for.
* `Denotes`, `Translates`, `Resolves`, `Settled`: the certificates.

## Main results

* `Resolves.language_eq`: references that resolve a goal have the language of the goal.
-/

namespace SchemaGrammar

open Grammar

/-! ## Goals -/

/-- What a reference may stand for: a node, a leaf, or a part of any JSON value. -/
inductive Goal where
  | node (n : Node)
  | terminal (t : Terminal)
  | json (layout : Layout)
  | freeList (layout : Layout)
  | freeObject (layout : Layout)

namespace Goal

/-- The words of a goal, given those of the nodes. -/
def language (env : Node → Language Char) : Goal → Language Char
  | .node n => env n
  | .terminal t => t.language
  | .json layout => jsonForm layout (env .line)
  | .freeList layout => SchemaGrammar.freeList layout (env .line)
  | .freeObject layout => SchemaGrammar.freeObject layout (env .line)

theorem language_mono {env env' : Node → Language Char} (h : env ≤ env') (goal : Goal) :
    goal.language env ≤ goal.language env' := by
  cases goal with
  | node n => exact h n
  | terminal t => exact le_rfl
  | json layout => exact jsonForm_mono (h .line)
  | freeList layout => exact freeList_mono (h .line)
  | freeObject layout => exact freeObject_mono (h .line)

/-- The words of a goal by the equation of its node, if it is one. -/
def unfolded (shapes : Shapes) (env : Node → Language Char) : Goal → Language Char
  | .node n => shapes.step env n
  | goal => goal.language env

theorem unfolded_language (shapes : Shapes) (goal : Goal) :
    goal.unfolded shapes shapes.language = goal.language shapes.language := by
  cases goal with
  | node n => exact (shapes.language_eq n).symm
  | _ => rfl

end Goal

/-! ## Certificates -/

/-- Whether every rule of one table is in another. -/
def Extends (rules rules' : Assoc Body) : Prop :=
  ∀ name body, rules.get? name = some body → rules'.get? name = some body

/-- `Denotes rules ref body`: the reference is the body, or leads to it through rules. -/
inductive Denotes (rules : Assoc Body) : Body → Body → Prop
  | same {ref body : Body} (h : ∀ env, ref.language env = body.language env) :
      Denotes rules ref body
  | rule {ref body : Body} {name : String} {found : Body}
      (h : ∀ env : String → Language Char, ref.language env = env name)
      (hget : rules.get? name = some found) (hd : Denotes rules found body) :
      Denotes rules ref body

/-- `Translates shapes parts goal body`: the body says of the references in it what the goal says
of its parts, in both directions. -/
def Translates (shapes : Shapes) (parts : List (Goal × Body)) (goal : Goal) (body : Body) : Prop :=
  ∀ (words : String → Language Char) (env : Node → Language Char),
    ((∀ p ∈ parts, p.2.language words ≤ p.1.language env) →
      body.language words ≤ goal.unfolded shapes env) ∧
    ((∀ p ∈ parts, p.1.language env ≤ p.2.language words) →
      goal.unfolded shapes env ≤ body.language words)

/-- Names that were given to nodes before their rules were known. -/
abbrev Owners := List (String × Node)

/-- `Resolves shapes owners rules goal ref`: the reference stands for the goal. -/
inductive Resolves (shapes : Shapes) (owners : Owners) (rules : Assoc Body) : Goal → Body → Prop
  | owner {name : String} {n : Node} (h : (name, n) ∈ owners) :
      Resolves shapes owners rules (.node n) (.rule name)
  | built {goal : Goal} {ref body : Body} (parts : List (Goal × Body))
      (hparts : ∀ p ∈ parts, Resolves shapes owners rules p.1 p.2)
      (ht : Translates shapes parts goal body) (hd : Denotes rules ref body) :
      Resolves shapes owners rules goal ref

/-- An owner whose rule is there. A reference may have the rule of its target. -/
def Settled (shapes : Shapes) (owners : Owners) (rules : Assoc Body) (name : String) (n : Node) :
    Prop :=
  ∃ target found body, (target = n ∨ ∀ env, shapes.step env n = env target) ∧
    rules.get? name = some found ∧ Denotes rules found body ∧
    ∃ parts : List (Goal × Body), (∀ p ∈ parts, Resolves shapes owners rules p.1 p.2) ∧
      Translates shapes parts (.node target) body

section

variable {shapes : Shapes} {owners owners' : Owners} {rules rules' : Assoc Body}

theorem Denotes.refl (body : Body) : Denotes rules body body := .same fun _ => rfl

theorem Denotes.trans {a b c : Body} (hab : Denotes rules a b) (hbc : Denotes rules b c) :
    Denotes rules a c := by
  induction hab with
  | same h =>
    cases hbc with
    | same h' => exact .same fun env => (h env).trans (h' env)
    | rule h' hget hd => exact .rule (fun env => (h env).trans (h' env)) hget hd
  | rule h hget _ ih => exact .rule h hget (ih hbc)

/-- The name of a rule denotes what its body denotes. -/
theorem Denotes.of_get? {name : String} {found body : Body} (hget : rules.get? name = some found)
    (hd : Denotes rules found body) : Denotes rules (.rule name) body :=
  .rule (fun _ => Body.language_rule name) hget hd

theorem Extends.refl (rules : Assoc Body) : Extends rules rules := fun _ _ h => h

theorem Extends.trans {a b c : Assoc Body} (hab : Extends a b) (hbc : Extends b c) : Extends a c :=
  fun name body h => hbc name body (hab name body h)

theorem Denotes.mono (he : Extends rules rules') {ref body : Body} (h : Denotes rules ref body) :
    Denotes rules' ref body := by
  induction h with
  | same h => exact .same h
  | rule h hget _ ih => exact .rule h (he _ _ hget) ih

theorem Resolves.mono (ho : owners ⊆ owners') (he : Extends rules rules') {goal : Goal}
    {ref : Body} (h : Resolves shapes owners rules goal ref) :
    Resolves shapes owners' rules' goal ref := by
  induction h with
  | owner h => exact .owner (ho h)
  | built parts _ ht hd ih => exact .built parts ih ht (hd.mono he)

theorem Settled.mono (ho : owners ⊆ owners') (he : Extends rules rules') {name : String} {n : Node}
    (h : Settled shapes owners rules name n) : Settled shapes owners' rules' name n := by
  obtain ⟨target, found, body, htarget, hget, hd, parts, hparts, ht⟩ := h
  exact ⟨target, found, body, htarget, he _ _ hget, hd.mono he, parts,
    fun p hp => (hparts p hp).mono ho he, ht⟩

end

/-! ## Every derivable word is meant -/

section

variable {shapes : Shapes} {owners : Owners} {rules : Assoc Body}

/-- The words that a name may have if all it stands for is to be respected. -/
def promised (shapes : Shapes) (owners : Owners) (rules : Assoc Body) (name : String) :
    Language Char :=
  {w | ∀ goal, Resolves shapes owners rules goal (.rule name) →
    w ∈ goal.language shapes.language}

theorem promised_le {goal : Goal} {name : String}
    (h : Resolves shapes owners rules goal (.rule name)) :
    promised shapes owners rules name ≤ goal.language shapes.language :=
  fun _ hw => hw goal h

/-- A body that denotes what translates a goal keeps to the promise, given that the parts do. -/
theorem Denotes.language_promised_le {parts : List (Goal × Body)} {goal : Goal} {ref body : Body}
    (hparts : ∀ p ∈ parts, Resolves shapes owners rules p.1 p.2)
    (hle : ∀ p ∈ parts, p.2.language (promised shapes owners rules) ≤
      p.1.language shapes.language)
    (ht : Translates shapes parts goal body) (hd : Denotes rules ref body) :
    ref.language (promised shapes owners rules) ≤ goal.language shapes.language := by
  cases hd with
  | same h =>
    rw [h, ← goal.unfolded_language]
    exact (ht _ _).1 hle
  | rule h hget hd =>
    rw [h]
    exact promised_le (.built parts hparts ht (.of_get? hget hd))

theorem Resolves.language_promised_le {goal : Goal} {ref : Body}
    (h : Resolves shapes owners rules goal ref) :
    ref.language (promised shapes owners rules) ≤ goal.language shapes.language := by
  induction h with
  | owner h =>
    rw [Body.language_rule]
    exact promised_le (.owner h)
  | built parts hparts ht hd ih => exact hd.language_promised_le hparts ih ht

/-- Applying the rules once more keeps the promises. A name that is followed through its rule gets
to a body over promised words; a body in place has parts to which the same applies. -/
theorem Resolves.language_ruleStep_le
    (hsettled : ∀ o ∈ owners, Settled shapes owners rules o.1 o.2) {goal : Goal} {ref : Body}
    (h : Resolves shapes owners rules goal ref) :
    ref.language (ruleStep rules (promised shapes owners rules)) ≤
      goal.language shapes.language := by
  induction h with
  | @owner name n h =>
    obtain ⟨target, found, body, htarget, hget, hd, parts, hparts, ht⟩ := hsettled _ h
    have hle := hd.language_promised_le hparts (fun p hp => (hparts p hp).language_promised_le) ht
    rw [Body.language_rule, ruleStep_of_get? hget]
    refine hle.trans ?_
    rcases htarget with rfl | hstep
    · exact le_rfl
    · exact ((shapes.language_eq n).trans (hstep _)).symm.le
  | built parts hparts ht hd ih =>
    cases hd with
    | same h =>
      rw [h, ← Goal.unfolded_language]
      exact (ht _ _).1 ih
    | rule h hget hd =>
      rw [h, ruleStep_of_get? hget]
      exact hd.language_promised_le hparts (fun p hp => (hparts p hp).language_promised_le) ht

theorem derivable_le_promised (hsettled : ∀ o ∈ owners, Settled shapes owners rules o.1 o.2) :
    derivable rules ≤ promised shapes owners rules := by
  rw [derivable_eq_lfp]
  refine OrderHom.lfp_le _ fun name w hw goal hgoal => ?_
  have hle := hgoal.language_ruleStep_le hsettled
  rw [Body.language_rule] at hle
  exact hle hw

/-! ## Every meant word is derivable -/

/-- On derivable words, a reference has the words of what it denotes. -/
theorem Denotes.language_derivable {ref body : Body} (h : Denotes rules ref body) :
    ref.language (derivable rules) = body.language (derivable rules) := by
  induction h with
  | same h => exact h _
  | rule h hget _ ih => rw [h, derivable_of_get? hget, ih]

/-- The words that all references to a node have. -/
def shared (shapes : Shapes) (owners : Owners) (rules : Assoc Body) (n : Node) : Language Char :=
  {w | ∀ ref, Resolves shapes owners rules (.node n) ref → w ∈ ref.language (derivable rules)}

theorem shared_le {n : Node} {ref : Body} (h : Resolves shapes owners rules (.node n) ref) :
    shared shapes owners rules n ≤ ref.language (derivable rules) :=
  fun _ hw => hw ref h

theorem Resolves.shared_language_le {goal : Goal} {ref : Body}
    (h : Resolves shapes owners rules goal ref) :
    goal.language (shared shapes owners rules) ≤ ref.language (derivable rules) := by
  induction h with
  | owner h => exact shared_le (.owner h)
  | @built goal ref body parts hparts ht hd ih =>
    cases goal with
    | node n => exact shared_le (.built parts hparts ht hd)
    | _ =>
      rw [hd.language_derivable]
      exact (ht _ _).2 ih

theorem shapeLanguage_le_shared
    (hsettled : ∀ o ∈ owners, Settled shapes owners rules o.1 o.2) :
    shapes.language ≤ shared shapes owners rules := by
  have hbuilt : ∀ {n : Node} {ref body : Body} {parts : List (Goal × Body)},
      (∀ p ∈ parts, Resolves shapes owners rules p.1 p.2) →
      Translates shapes parts (.node n) body → Denotes rules ref body →
      shapes.step (shared shapes owners rules) n ≤ ref.language (derivable rules) := by
    intro n ref body parts hparts ht hd
    rw [hd.language_derivable]
    exact (ht _ _).2 fun p hp => (hparts p hp).shared_language_le
  refine Shapes.language_le fun n w hw ref href => ?_
  cases href with
  | owner h =>
    obtain ⟨target, found, body, htarget, hget, hd, parts, hparts, ht⟩ := hsettled _ h
    have hname := Denotes.of_get? hget hd
    rcases htarget with rfl | hstep
    · exact hbuilt hparts ht hname hw
    · rw [hstep] at hw
      exact shared_le (.built parts hparts ht hname) hw
  | built parts hparts ht hd => exact hbuilt hparts ht hd hw

/-- **References that resolve a goal have the language of the goal**, once every name that was
given away has its rule. -/
theorem Resolves.language_eq (hsettled : ∀ o ∈ owners, Settled shapes owners rules o.1 o.2)
    {goal : Goal} {ref : Body} (h : Resolves shapes owners rules goal ref) :
    ref.language (derivable rules) = goal.language shapes.language := by
  apply le_antisymm
  · exact (ref.language_mono (derivable_le_promised hsettled)).trans h.language_promised_le
  · exact (goal.language_mono (shapeLanguage_le_shared hsettled)).trans h.shared_language_le

end

end SchemaGrammar
