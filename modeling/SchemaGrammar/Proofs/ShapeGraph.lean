import Mathlib.Algebra.BigOperators.Group.Finset.Basic
import Mathlib.Logic.Relation
import SchemaGrammar.Proofs.LoweringRun

/-!
# What a shape can begin with

A reference begins with its target and a choice with each of its members, before anything is
matched. A shape that begins with itself matches nothing that it does not match already, so lowering
looks for it each time a reference gets its target. The search goes through a table in which later
references have no target yet; a cycle is closed by the last of its references that gets one, and is
found then.

## Main definitions

* `Shapes.Begins`, `Shapes.Acyclic`: what a shape begins with, and that none begins with itself.

## Main results

* `Shapes.refersBack_iff`: the search finds exactly the references that begin with themselves.
* `Shapes.Acyclic.push`, `Shapes.Acyclic.setTarget`: the two ways a table grows create no cycle.
-/

namespace SchemaGrammar

open Lowering (starts reaches searchSteps refersBack)
open Relation (ReflTransGen TransGen)

/-! ## New steps from one place -/

section

variable {α : Type} {step step' : α → α → Prop} {i a b : α} {new : α → Prop}
  (hnew : ∀ a b, step' a b → step a b ∨ a = i ∧ new b)

include hnew

/-- A path is an old one, or takes a new step, all of which start from `i`. -/
theorem reflTransGen_of_new (h : ReflTransGen step' a b) :
    ReflTransGen step a b ∨ ReflTransGen step a i ∧ ∃ t, new t ∧ ReflTransGen step t b := by
  induction h using ReflTransGen.head_induction_on with
  | refl => exact .inl .refl
  | head hstep _ ih =>
    rcases hnew _ _ hstep with hstep | ⟨rfl, ht⟩
    · exact ih.imp (.head hstep) fun ⟨hto, hfrom⟩ => ⟨.head hstep hto, hfrom⟩
    · exact .inr ⟨.refl, ih.elim (fun hold => ⟨_, ht, hold⟩) And.right⟩

/-- New steps close no cycle if they do not lead back to where they start. -/
theorem acyclic_of_new (h : ∀ a, ¬ TransGen step a a)
    (hback : ∀ t, new t → ¬ ReflTransGen step t i) :
    ∀ a, ¬ TransGen step' a a := by
  intro a hcycle
  obtain ⟨b, hab, hba⟩ := TransGen.head'_iff.mp hcycle
  rcases hnew a b hab with hab | ⟨rfl, hb⟩
  · rcases reflTransGen_of_new hnew hba with hold | ⟨hto, t, ht, hfrom⟩
    · exact h a (.head' hab hold)
    · exact hback t ht (hfrom.trans (.head hab hto))
  · rcases reflTransGen_of_new hnew hba with hold | ⟨hto, -⟩
    · exact hback b hb hold
    · exact hback b hb hto

end

/-! ## Shapes as a graph -/

/-- The shapes that a shape is made of. A reference is not made of its target. -/
def Shape.parts : Shape → List ShapeId
  | .array shape => shape.leading ++ [shape.items]
  | .object shape => shape.properties.map Property.value ++ shape.additional.toList
  | .enumeration members | .union members => members
  | .terminal _ | .reference _ _ | .anyJson _ => []

namespace Shapes

/-- A reference begins with its target, a choice with each of its members. -/
inductive Begins (shapes : Shapes) : ShapeId → ShapeId → Prop
  | target {id target : ShapeId} {name : String}
      (h : shapes.get? id = some (.reference name (some target))) : Begins shapes id target
  | member {id m : ShapeId} {members : List ShapeId}
      (h : shapes.get? id = some (.union members)) (hm : m ∈ members) : Begins shapes id m

/-- No shape begins with itself. -/
def Acyclic (shapes : Shapes) : Prop := ∀ id, ¬ TransGen shapes.Begins id id

/-- What shapes are made of comes before them, and references lead to what is in the table. -/
structure Ordered (shapes : Shapes) : Prop where
  parts : ∀ {id shape}, shapes.get? id = some shape → ∀ part ∈ shape.parts, part < id
  targets : ∀ {id name target}, shapes.get? id = some (.reference name (some target)) →
    target < shapes.size

section

variable {shapes : Shapes} {id other goal target : ShapeId}

theorem begins_iff : shapes.Begins id other ↔ other ∈ starts shapes id := by
  unfold starts
  constructor
  · rintro (h | ⟨h, hm⟩)
    · rw [h]
      exact List.mem_singleton.mpr rfl
    · rw [h]
      exact hm
  · intro h
    split at h
    · next hget =>
      rw [List.mem_singleton.mp h]
      exact .target hget
    · next hget => exact .member hget h
    · exact absurd h List.not_mem_nil

theorem lt_size_of_begins (h : shapes.Begins id other) : id < shapes.size := by
  cases h with
  | target h => exact Lowering.lt_size_of_get? h
  | member h _ => exact Lowering.lt_size_of_get? h

theorem Ordered.begins (ho : shapes.Ordered) (h : shapes.Begins id other) :
    other < shapes.size := by
  cases h with
  | target h => exact ho.targets h
  | member h hm => exact (ho.parts h other hm).trans (Lowering.lt_size_of_get? h)

/-! ## The search -/

/-- What the search finds is there. -/
theorem exists_of_reaches {steps : Nat} {seen : Array Bool} {pending : List ShapeId}
    (h : reaches shapes goal steps seen pending = true) :
    ∃ id ∈ pending, ReflTransGen shapes.Begins id goal := by
  induction steps generalizing seen pending with
  | zero => simp [reaches] at h
  | succ steps ih =>
    cases pending with
    | nil => simp [reaches] at h
    | cons next pending =>
      rw [reaches] at h
      split_ifs at h with hgoal hseen
      · exact ⟨next, List.mem_cons_self, hgoal ▸ .refl⟩
      · obtain ⟨id, hid, hpath⟩ := ih h
        exact ⟨id, List.mem_cons_of_mem _ hid, hpath⟩
      · obtain ⟨id, hid, hpath⟩ := ih h
        rcases List.mem_append.mp hid with hid | hid
        · exact ⟨next, List.mem_cons_self, .head (begins_iff.mpr hid) hpath⟩
        · exact ⟨id, List.mem_cons_of_mem _ hid, hpath⟩

/-- Whether the search has looked into a shape. -/
def isSeen (seen : Array Bool) (id : ShapeId) : Bool := seen[id]?.getD false

/-- A bound on what is still pushed: what the shapes begin with that were not looked into. -/
def ahead (shapes : Shapes) (seen : Array Bool) : Nat :=
  ∑ id ∈ Finset.range shapes.size, if isSeen seen id then 0 else (starts shapes id).length + 1

theorem isSeen_mark {seen : Array Bool} (h : id < seen.size) :
    isSeen (seen.setIfInBounds id true) other = (isSeen seen other || decide (other = id)) := by
  unfold isSeen
  rw [Array.getElem?_setIfInBounds]
  by_cases heq : id = other
  · subst heq
    simp [h]
  · simp [heq, Ne.symm heq]

theorem ahead_mark {seen : Array Bool} (hsize : seen.size = shapes.size) (h : id < shapes.size)
    (hnew : isSeen seen id = false) :
    shapes.ahead (seen.setIfInBounds id true) + ((starts shapes id).length + 1) =
      shapes.ahead seen := by
  have hmem : id ∈ Finset.range shapes.size := Finset.mem_range.mpr h
  unfold ahead
  rw [← Finset.add_sum_erase _ _ hmem, ← Finset.add_sum_erase _ _ hmem, isSeen_mark (hsize ▸ h),
    hnew]
  have hrest : ∀ other ∈ (Finset.range shapes.size).erase id,
      (if isSeen (seen.setIfInBounds id true) other then 0 else (starts shapes other).length + 1) =
        if isSeen seen other then 0 else (starts shapes other).length + 1 := by
    intro other hother
    rw [isSeen_mark (hsize ▸ h), decide_eq_false (Finset.ne_of_mem_erase hother), Bool.or_false]
  rw [Finset.sum_congr rfl hrest, decide_eq_true rfl, Bool.or_true, if_pos rfl,
    if_neg Bool.false_ne_true, Nat.zero_add, Nat.add_comm]

/-- What was looked into is not what is looked for, and what it begins with was looked into or is
still to come. -/
def Explored (shapes : Shapes) (goal : ShapeId) (seen : Array Bool) (pending : List ShapeId) :
    Prop :=
  ∀ id, isSeen seen id = true → id ≠ goal ∧
    ∀ other, shapes.Begins id other → isSeen seen other = true ∨ other ∈ pending

section

variable {seen : Array Bool} {pending : List ShapeId} {next : ShapeId}

theorem Explored.skip (h : shapes.Explored goal seen (next :: pending))
    (hnext : isSeen seen next = true) : shapes.Explored goal seen pending := by
  refine fun id hid => ⟨(h id hid).1, fun other hb => ?_⟩
  rcases (h id hid).2 other hb with hother | hother
  · exact .inl hother
  · rcases List.mem_cons.mp hother with rfl | hother
    · exact .inl hnext
    · exact .inr hother

theorem Explored.mark (h : shapes.Explored goal seen (next :: pending)) (hnext : next ≠ goal)
    (hlt : next < seen.size) :
    shapes.Explored goal (seen.setIfInBounds next true) (starts shapes next ++ pending) := by
  intro id hid
  rw [isSeen_mark hlt, Bool.or_eq_true, decide_eq_true_eq] at hid
  rcases hid with hid | rfl
  · refine ⟨(h id hid).1, fun other hb => ?_⟩
    rw [isSeen_mark hlt, Bool.or_eq_true, decide_eq_true_eq]
    rcases (h id hid).2 other hb with hother | hother
    · exact .inl (.inl hother)
    · rcases List.mem_cons.mp hother with rfl | hother
      · exact .inl (.inr rfl)
      · exact .inr (List.mem_append_right _ hother)
  · exact ⟨hnext, fun other hb => .inr (List.mem_append_left _ (begins_iff.mp hb))⟩

/-- A search that ends without a find has looked into a set that nothing leads out of. -/
theorem exists_closed_of_reaches (ho : shapes.Ordered) {steps : Nat}
    (hsize : seen.size = shapes.size) (hpending : ∀ id ∈ pending, id < shapes.size)
    (hexplored : shapes.Explored goal seen pending)
    (hsteps : shapes.ahead seen + pending.length < steps)
    (h : reaches shapes goal steps seen pending = false) :
    ∃ S : Set ShapeId, (∀ id ∈ pending, id ∈ S) ∧ (∀ id, isSeen seen id = true → id ∈ S) ∧
      goal ∉ S ∧ ∀ id ∈ S, ∀ other, shapes.Begins id other → other ∈ S := by
  induction steps generalizing seen pending with
  | zero => exact absurd hsteps (Nat.not_lt_zero _)
  | succ steps ih =>
    cases pending with
    | nil =>
      refine ⟨{id | isSeen seen id = true}, fun _ h => absurd h List.not_mem_nil, fun _ h => h,
        fun h => (hexplored goal h).1 rfl, fun id hid other hb => ?_⟩
      exact ((hexplored id hid).2 other hb).resolve_right List.not_mem_nil
    | cons next pending =>
      obtain ⟨hnext, hpending⟩ := List.forall_mem_cons.mp hpending
      rw [List.length_cons] at hsteps
      rw [reaches] at h
      split_ifs at h with hgoal hknown
      · obtain ⟨S, hS, hseenS, hout⟩ :=
          ih hsize hpending (hexplored.skip hknown) (by omega) h
        exact ⟨S, List.forall_mem_cons.mpr ⟨hseenS next hknown, hS⟩, hseenS, hout⟩
      · have hahead := ahead_mark hsize hnext (Bool.eq_false_of_not_eq_true hknown)
        have hlt : next < seen.size := hsize ▸ hnext
        have hpending' : ∀ id ∈ starts shapes next ++ pending, id < shapes.size :=
          List.forall_mem_append.mpr ⟨fun id hid => ho.begins (begins_iff.mpr hid), hpending⟩
        obtain ⟨S, hS, hseenS, hout⟩ := ih (by simpa using hsize) hpending'
          (hexplored.mark hgoal hlt) (by rw [List.length_append]; omega) h
        have hmarked : ∀ id, isSeen seen id = true ∨ id = next → id ∈ S := fun id hid =>
          hseenS id (by rw [isSeen_mark hlt, Bool.or_eq_true, decide_eq_true_eq]; exact hid)
        obtain ⟨-, hrest⟩ := List.forall_mem_append.mp hS
        exact ⟨S, List.forall_mem_cons.mpr ⟨hmarked next (.inr rfl), hrest⟩,
          fun id hid => hmarked id (.inl hid), hout⟩

end

theorem isSeen_replicate (n : Nat) (id : ShapeId) :
    isSeen (Array.replicate n false) id = false := by
  unfold isSeen
  rw [Array.getElem?_replicate]
  split_ifs <;> rfl

theorem searchSteps_eq (shapes : Shapes) :
    searchSteps shapes = shapes.ahead (Array.replicate shapes.size false) + 2 := by
  have htotal : ∀ f : Nat → Nat, Schema.totalOf f (List.range shapes.size) =
      ∑ id ∈ Finset.range shapes.size, f id := by
    intro f
    rw [Schema.totalOf_eq_sum]
    rfl
  unfold searchSteps ahead
  rw [htotal]
  refine congrArg (· + 2) (Finset.sum_congr rfl fun id _ => ?_)
  rw [isSeen_replicate, if_neg Bool.false_ne_true]

/-- **The search finds exactly the references that begin with themselves.** -/
theorem refersBack_iff (ho : shapes.Ordered) (htarget : target < shapes.size) :
    refersBack shapes id target = true ↔ ReflTransGen shapes.Begins target id := by
  constructor
  · intro h
    obtain ⟨_, hmem, hpath⟩ := exists_of_reaches h
    rwa [List.mem_singleton.mp hmem] at hpath
  · intro hpath
    by_contra h
    obtain ⟨S, hS, -, hgoal, hclosed⟩ := exists_closed_of_reaches ho Array.size_replicate
      (List.forall_mem_singleton.mpr htarget)
      (fun other hother => absurd hother (by simp [isSeen_replicate]))
      (by rw [searchSteps_eq, List.length_singleton]; omega) (Bool.eq_false_of_not_eq_true h)
    have hinside : ∀ other, ReflTransGen shapes.Begins target other → other ∈ S := by
      intro other hother
      induction hother with
      | refl => exact hS target (List.mem_singleton.mpr rfl)
      | tail _ hb ih => exact hclosed _ ih _ hb
    exact hgoal (hinside id hpath)

/-! ## Tables that grow -/

theorem begins_push {shape : Shape} (h : (shapes.push shape).2.Begins id other) :
    id < shapes.size ∧ shapes.Begins id other ∨ id = shapes.size ∧
      (shapes.push shape).2.Begins shapes.size other := by
  have hlt := lt_size_of_begins h
  rw [size_push] at hlt
  rcases Nat.lt_succ_iff_lt_or_eq.mp hlt with hlt | rfl
  · rw [begins_iff, starts, get?_push_of_lt hlt] at h
    exact .inl ⟨hlt, begins_iff.mpr h⟩
  · exact .inr ⟨rfl, h⟩

/-- **A new shape closes no cycle**: it begins with older shapes, and none of these with it. -/
theorem Acyclic.push (h : shapes.Acyclic) (ho : shapes.Ordered) {shape : Shape}
    (ho' : (shapes.push shape).2.Ordered)
    (hopen : ∀ name target, shape ≠ .reference name (some target)) :
    (shapes.push shape).2.Acyclic := by
  have hlt : ∀ {id other}, (shapes.push shape).2.Begins id other → other < shapes.size := by
    intro id other hb
    rcases begins_push hb with ⟨-, hb⟩ | ⟨-, hb⟩
    · exact ho.begins hb
    · have hself := get?_push_self shapes shape
      cases hb with
      | target hget => exact absurd (Option.some.inj (hself.symm.trans hget)) (hopen _ _)
      | member hget hm => exact ho'.parts hget other hm
  have hpath : ∀ {id other}, TransGen (shapes.push shape).2.Begins id other → id < shapes.size →
      TransGen shapes.Begins id other := by
    intro id other hpath hid
    have hstep : ∀ {a b}, (shapes.push shape).2.Begins a b → a < shapes.size →
        shapes.Begins a b := by
      intro a b hb ha
      rcases begins_push hb with ⟨-, hb⟩ | ⟨rfl, -⟩
      · exact hb
      · exact absurd ha (Nat.lt_irrefl _)
    induction hpath with
    | single hb => exact .single (hstep hb hid)
    | tail hpath hb ih =>
      refine ih.tail (hstep hb ?_)
      cases hpath with
      | single hb => exact hlt hb
      | tail _ hb => exact hlt hb
  intro id hcycle
  have hid : id < shapes.size := by
    cases hcycle with
    | single hb => exact hlt hb
    | tail _ hb => exact hlt hb
  exact h id (hpath hcycle hid)

theorem get?_setTarget_cases {i : ShapeId} {name : String}
    (hopen : shapes.get? i = some (.reference name none)) {found : Shape}
    (hget : (shapes.setTarget i target).get? id = some found) :
    id ≠ i ∧ shapes.get? id = some found ∨ id = i ∧ found = .reference name (some target) := by
  by_cases heq : id = i
  · subst heq
    have hself := (Lowering.get?_setTarget_self hopen target).symm.trans hget
    exact .inr ⟨rfl, (Option.some.inj hself).symm⟩
  · exact .inl ⟨heq, (Lowering.get?_setTarget_of_ne heq target).symm.trans hget⟩

theorem Ordered.setTarget (ho : shapes.Ordered) {i : ShapeId} {name : String}
    (hopen : shapes.get? i = some (.reference name none)) (htarget : target < shapes.size) :
    (shapes.setTarget i target).Ordered := by
  refine ⟨fun hget => ?_, fun hget => ?_⟩
  · rcases get?_setTarget_cases hopen hget with ⟨-, hget⟩ | ⟨rfl, rfl⟩
    · exact ho.parts hget
    · exact fun _ h => absurd h List.not_mem_nil
  · rw [size_setTarget]
    rcases get?_setTarget_cases hopen hget with ⟨-, hget⟩ | ⟨rfl, heq⟩
    · exact ho.targets hget
    · cases heq
      exact htarget

theorem begins_setTarget {i : ShapeId} {name : String}
    (hopen : shapes.get? i = some (.reference name none))
    (h : (shapes.setTarget i target).Begins id other) :
    shapes.Begins id other ∨ id = i ∧ other = target := by
  cases h with
  | target hget =>
    rcases get?_setTarget_cases hopen hget with ⟨-, hget⟩ | ⟨rfl, heq⟩
    · exact .inl (.target hget)
    · cases heq
      exact .inr ⟨rfl, rfl⟩
  | member hget hm =>
    rcases get?_setTarget_cases hopen hget with ⟨-, hget⟩ | ⟨rfl, heq⟩
    · exact .inl (.member hget hm)
    · cases heq

theorem Begins.setTarget {i : ShapeId} {name : String}
    (hopen : shapes.get? i = some (.reference name none)) (h : shapes.Begins id other) :
    (shapes.setTarget i target).Begins id other := by
  have hne : ∀ {found}, shapes.get? id = some found → found ≠ .reference name none → id ≠ i := by
    rintro found hget hfound rfl
    exact hfound (Option.some.inj (hget.symm.trans hopen))
  cases h with
  | target hget =>
    exact .target ((Lowering.get?_setTarget_of_ne (hne hget (by simp)) target).trans hget)
  | member hget hm =>
    exact .member ((Lowering.get?_setTarget_of_ne (hne hget (by simp)) target).trans hget) hm

/-- **A target closes no cycle** that the search does not find. -/
theorem Acyclic.setTarget (h : shapes.Acyclic) {i : ShapeId} {name : String}
    (hopen : shapes.get? i = some (.reference name none))
    (hback : ¬ ReflTransGen (shapes.setTarget i target).Begins target i) :
    (shapes.setTarget i target).Acyclic := by
  refine acyclic_of_new (fun _ _ => begins_setTarget hopen) h ?_
  rintro _ rfl hpath
  exact hback (hpath.lift id fun _ _ hb => hb.setTarget hopen)

end

end Shapes

end SchemaGrammar
