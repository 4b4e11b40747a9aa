import SchemaGrammar.Proofs.SchemaFlaws

/-!
# What lowering gives, and when

Lowering gives shapes that represent the document, and fails only because of a flaw of it. A
fragment is represented if its parts are; it fails because it asks for what has no shape, or as one
of its parts does. A reference is refused if its shape can begin with itself, and the path through
the table is one through the document.

References are followed at most as often as there are definitions. Each definition is entered once,
so the references that are left and the definitions that were entered are always enough together.

With the converse, `lower_isOk_iff` says which schemas have shapes, without a run. As what a
document leads to does not depend on the order in which it is gone through, neither does the
outcome.

## Main definitions

* `Lowering.soundAccount`: what runs of lowering give, and what their failure shows.

## Main results

* `lower_represents`: what lowering leaves in its table.
* `lower_isOk_iff`: a lexically scoped schema has shapes if and only if it has no flaw.
-/

namespace SchemaGrammar

open Json (Value)

namespace Lowering

section

variable (s : Schema) (external : Assoc Schema) (waiting : List ShapeId)

/-- What is kept while the shapes of `waiting` have no target yet. -/
def soundCourse : Course Lowering where
  inv := Sound s external waiting
  grows := Grows
  refl := .refl
  trans := .trans

/-- What was made represents what it was made for. -/
def StandsAs (st : Lowering) (env : Env) (t : Schema) (id : ShapeId) : Aspect → Prop
  | .whole => Stands s external st env t id
  | .typed type => t.supports type = true ∧
      RepresentsAs st.shapes (Stands s external st (t.inner env)) t type id
  | .literal value => st.shapes.IsLiteral value id
  | .free => st.shapes.IsFree id

/-- Shapes represent fragments, and a failure shows a flaw. There are enough references left for the
definitions that were not entered. -/
def soundAccount (jumps : Nat) : Account Env where
  toCourse := soundCourse s external waiting
  inner env t := t.inner env
  ready env place t _ scope st := Fragment s external place env t ∧
    Scope.Sees s external st.registry scope env ∧
    s.definitionTotal external ≤ jumps + st.references.length
  inside env place t _ scope st := Fragment s external place env t ∧
    Scope.Sees s external st.registry scope (t.inner env) ∧
    s.definitionTotal external ≤ jumps + st.references.length
  made env t _ x st id := StandsAs s external st env t id x
  part env t _ x st id := StandsAs s external st env t id x
  flaw env t _ _ := Closure.Flawed ⟨t, env⟩

/-- What is known of definitions, if `jumps` references are left. -/
def FollowLowers (jumps : Nat) : Prop :=
  ∀ waiting st name definition env layout scope,
    Fragment s external definition.place env definition.schema →
    Scope.Sees s external st.registry scope env → Sound s external waiting st →
    s.definitionTotal external < jumps + st.references.length →
    (soundCourse s external waiting).Runs (fun _ _ => Closure.Flawed ⟨definition.schema, env⟩) st
      (follow jumps name definition layout scope) fun st' id =>
        Stands s external st' env definition.schema id

end

section

variable {s t : Schema} {external : Assoc Schema} {waiting : List ShapeId} {st st' : Lowering}
  {env : Env} {jumps : Nat} {layout : Layout}

theorem StandsAs.mono {x : Aspect} {id : ShapeId} (h : StandsAs s external st env t id x)
    (hg : Grows st st') : StandsAs s external st' env t id x := by
  cases x with
  | whole => exact Stands.mono h hg
  | typed type => exact ⟨h.1, h.2.mono hg.keeps fun _ _ hs => Stands.mono hs hg⟩
  | literal value => exact hg.keeps.isLiteral h
  | free => exact hg.keeps.isFree h

/-- A shape that is made of its parts represents what it is made for. -/
theorem standsAs_of_formed {x : Aspect} {shape : Shape}
    (h : (soundAccount s external waiting jumps).Formed env t layout st x shape) :
    StandsAs s external { st with shapes := (st.shapes.push shape).2 } env t st.shapes.size x := by
  have hmono : ∀ {env t layout x id},
      (soundAccount s external waiting jumps).part env t layout x st id →
      StandsAs s external { st with shapes := (st.shapes.push shape).2 } env t id x :=
    fun h => StandsAs.mono h (grows_push st shape)
  have hget := Shapes.get?_push_self st.shapes shape
  cases h with
  | literal hterminal => exact ⟨_, hterminal, hget⟩
  | enumeration hc _ hmembers =>
    refine represents_iff.mpr ?_
    rw [hc]
    exact ⟨_, hget, hmembers.imp fun _ _ hm => hmono hm⟩
  | union hc hclash hmembers =>
    refine represents_iff.mpr ?_
    rw [hc]
    exact ⟨hclash, _, .inr hget, hmembers.imp fun _ _ hm => hmono hm⟩
  | types hc hmembers =>
    refine represents_iff.mpr ?_
    rw [hc]
    exact ⟨_, .inr hget, hmembers.imp fun _ _ hm => hmono hm⟩
  | anything hc =>
    refine represents_iff.mpr ?_
    rw [hc]
    exact ⟨_, hget⟩
  | hole => exact ⟨_, hget⟩
  | string hterminal =>
    refine ⟨?_, _, hterminal, hget⟩
    rw [Schema.supports, hterminal]
    rfl
  | number | integer | boolean | null => exact ⟨rfl, hget⟩
  | @object properties extra hs hproperties hextra =>
    refine ⟨hs, _, hget, hproperties.imp fun _ _ hp => ⟨hp.1, hp.2.1, hmono hp.2.2⟩, ?_⟩
    cases extra with
    | none =>
      rcases hextra with hmore | hmore
      · rw [hmore]
        rfl
      · rw [hmore]
        rfl
    | some id =>
      rcases hextra with ⟨hmore, hid⟩ | ⟨c, hmore, hid⟩
      · rw [hmore]
        exact ⟨id, rfl, hmono hid⟩
      · rw [hmore]
        exact ⟨id, rfl, hmono hid⟩
  | array hs hleading hitems =>
    refine ⟨hs, _, hget, fun count => ?_, hleading.imp fun _ _ hc => hmono hc, ?_⟩
    · rw [← hleading.length_eq]
      exact within_widened (Schema.supports_array_iff.mp hs) count
    · rcases hitems with ⟨hitems, hid⟩ | ⟨c, hitems, hid⟩
      · rw [hitems]
        exact hmono hid
      · rw [hitems]
        exact hmono hid

theorem stands_of_alone {id : ShapeId}
    (h : (soundAccount s external waiting jumps).Alone env t layout st id) :
    Stands s external st env t id := by
  refine represents_iff.mpr ?_
  cases h with
  | constant hc h =>
    rw [hc]
    exact h
  | union hc hclash h =>
    rw [hc]
    exact ⟨hclash, [id], .inl rfl, .cons h .nil⟩
  | types hc h =>
    rw [hc]
    exact ⟨[id], .inl rfl, .cons h .nil⟩

/-! ## References -/

/-- No more definitions were entered than there are. -/
theorem Sound.length_le (hst : Sound s external waiting st) :
    st.references.length ≤ s.definitionTotal external := by
  have hsubset : st.references.map Prod.fst ⊆ documentKeys s external := by
    intro key hkey
    obtain ⟨e, he, rfl⟩ := List.mem_map.mp hkey
    exact hst.known he
  have hle := (hst.distinct.subperm hsubset).length_le
  rwa [List.length_map, length_documentKeys] at hle

theorem Grows.length_le (hg : Grows st st') (hst : Sound s external waiting st) :
    st.references.length ≤ st'.references.length :=
  (hst.distinct.of_map _).subperm hg.references |>.length_le

section

variable (hd : DistinctNames s external) (hs : LexicallyScoped s external)

include hd hs

omit hs in
/-- A definition whose body has a shape is closed, or it stands for itself. -/
theorem lowers_closeReference {name : String} {c : Closure} {home : Place} {st₁ : Lowering}
    {target : ShapeId} (hhome : Fragment s external home c.env c.schema)
    (hst : Sound s external waiting st)
    (hst₁ : Sound s external (st.shapes.size :: waiting) st₁)
    (hg : Grows (st.define (name, home) name) st₁)
    (htarget : Stands s external st₁ c.env c.schema target) :
    (∀ {id st'}, (closeReference st.shapes.size name target).run st₁ = (.ok id, st') →
      Sound s external waiting st' ∧ Grows st st' ∧ standing s external st' name c id) ∧
    ∀ {error st'}, (closeReference st.shapes.size name target).run st₁ = (.error error, st') →
      c.Flawed := by
  obtain ⟨hmem, hopen, hst₂⟩ := hst.leave_definition hd hhome hst₁ hg htarget
  have hstanding : standing s external
      { st₁ with shapes := st₁.shapes.setTarget st.shapes.size target } name c st.shapes.size :=
    ⟨home, hmem, hhome⟩
  rw [run_closeReference]
  refine ⟨fun hrun => ?_, fun hrun => ?_⟩
  · obtain ⟨houtcome, rfl⟩ := Prod.mk.inj hrun
    split_ifs at houtcome
    cases houtcome
    refine ⟨hst₂, ⟨fun other shape hother => ?_, ?_, hg.registry⟩, hstanding⟩
    · have hne : other ≠ st.shapes.size := (lt_size_of_get? hother).ne
      exact (get?_setTarget_of_ne hne target).trans
        (hg.shapes _ _ ((grows_define st (name, home) name).shapes _ _ hother))
    · exact List.Subset.trans (List.subset_cons_self _ _) hg.references
  · have hback : refersBack (st₁.shapes.setTarget st.shapes.size target) st.shapes.size
        target = true := by
      by_contra hback
      rw [if_neg hback] at hrun
      cases hrun
    obtain ⟨_, hpending, hpath⟩ := Shapes.exists_of_reaches hback
    rw [List.mem_singleton.mp hpending] at hpath
    refine .of_cycle (hst₂.leadsTo hd hstanding hpath ?_)
    exact hst₂.stands_target hstanding (get?_setTarget_self hopen target)

/-- A reference has the shape that stands for the definition it means. It fails as the definition
does, or because the definition stands for itself. -/
theorem lowers_reference (hfollow : FollowLowers s external jumps) {place : Place} {scope : Scope}
    {text : String} (hc : t.criterion = .reference text) (hf : Fragment s external place env t)
    (hsees : Scope.Sees s external st.registry scope (t.inner env))
    (hst : Sound s external waiting st)
    (henough : s.definitionTotal external ≤ jumps + st.references.length) :
    (soundCourse s external waiting).Runs (fun _ _ => Closure.Flawed ⟨t, env⟩) st
      (reference (follow jumps) text layout scope) fun st' id =>
        Stands s external st' env t id := by
  obtain ⟨name, c, hname, hfind⟩ := hs.exists_closure hf (Schema.reference_of_criterion hc)
  obtain ⟨home, hget, hhome⟩ := hsees.covers name c hfind
  have hstands : ∀ {st' id}, standing s external st' name c id →
      Stands s external st' env t id := by
    intro st' id hstanding
    refine represents_iff.mpr ?_
    rw [hc]
    exact ⟨name, c, hname, hfind, hstanding⟩
  cases hlookup : st.references.lookup (name, home) with
  | some known =>
    refine ⟨fun hrun => ?_, fun hrun => ?_⟩
    · rw [reference_known hname hget hlookup] at hrun
      cases hrun
      exact ⟨hst, .refl st, hstands ⟨home, mem_of_lookup hlookup, hhome⟩⟩
    · rw [reference_known hname hget hlookup] at hrun
      cases hrun
  | none =>
    obtain ⟨hst₀, hsees₀⟩ := hst.enter_definition hd hhome hsees hget hlookup
    have hbody := hfollow _ _ name ⟨home, c.schema⟩ c.env layout _ hhome hsees₀ hst₀
      (Nat.lt_succ_of_le henough)
    refine ⟨fun hrun => ?_, fun hrun => ?_⟩
    · rw [reference_new hname hget hlookup] at hrun
      obtain ⟨target, st₁, hrun₁, hrun⟩ := run_bind_ok hrun
      obtain ⟨hst₁, hg₁, htarget⟩ := hbody.ok hrun₁
      obtain ⟨hst₂, hg₂, hstanding⟩ := (lowers_closeReference hd hhome hst hst₁ hg₁ htarget).1 hrun
      exact ⟨hst₂, hg₂, hstands hstanding⟩
    · rw [reference_new hname hget hlookup] at hrun
      have huses : Closure.Uses ⟨t, env⟩ c := .target ⟨text, name, hc, hname, hfind⟩
      refine .of_uses huses ?_
      rcases run_bind_error hrun with hrun | ⟨target, st₁, hrun₁, hrun⟩
      · exact hbody.error hrun
      · obtain ⟨hst₁, hg₁, htarget⟩ := hbody.ok hrun₁
        exact (lowers_closeReference hd hhome hst hst₁ hg₁ htarget).2 hrun

/-! ## Fragments -/

omit hs in
theorem Sound.entered (hst : Sound s external waiting st) {place : Place} {scope : Scope}
    (hf : Fragment s external place env t) (hsees : Scope.Sees s external st.registry scope env) :
    Sound s external waiting { st with registry := st.registry.entered place t scope } ∧
      Grows st { st with registry := st.registry.entered place t scope } ∧
      Scope.Sees s external (st.registry.entered place t scope) (scope.entered place t)
        (t.inner env) := by
  obtain ⟨hsound, hinner, hextends⟩ := Scope.sound_entered hd hst.registry hsees hf
  have hg : Grows st { st with registry := st.registry.entered place t scope } :=
    ⟨fun _ _ h => h, List.Subset.refl _, hextends⟩
  exact ⟨hst.grow hg rfl hsound, hg, hinner⟩

theorem lawful_soundAccount (hfollow : FollowLowers s external jumps) :
    (soundAccount s external waiting jumps).Lawful (follow jumps) where
  part_of_made h := h
  part_mono _ hg h := h.mono hg
  inside_mono hst hg h := ⟨h.1, h.2.1.mono hg.registry,
    h.2.2.trans (Nat.add_le_add_left (hg.length_le hst) jumps)⟩
  enter hst h := by
    obtain ⟨hst', hg, hinner⟩ := hst.entered hd h.1 h.2.1
    exact ⟨hst', hg, h.1, hinner, h.2.2⟩
  child h e he _ _ := ⟨.child h.1 he, h.2⟩
  push hst _ hx := ⟨hst.grow (grows_push _ _) rfl hst.registry, grows_push _ _,
    standsAs_of_formed hx⟩
  alone h := stands_of_alone h
  own h _ := Closure.Flawed.of_unsupported (c := ⟨_, _⟩) h
  lift hused hflaw := .of_uses (.part (c := ⟨_, _⟩) hused) hflaw
  reference hst h hc := lowers_reference hd hs hfollow hc h.1 h.2.1 hst h.2.2

/-- **A definition is represented by the shape that its lowering gives**, or has a flaw, by
induction over the references that are left to follow. There is always one left, as no more
definitions are entered than there are. -/
theorem lowers_follow (jumps : Nat) : FollowLowers s external jumps := by
  induction jumps with
  | zero =>
    intro waiting st name definition env layout scope _ _ hst henough
    rw [Nat.zero_add] at henough
    exact absurd hst.length_le (Nat.not_le.mpr henough)
  | succ jumps ih =>
    intro waiting st name definition env layout scope hf hsees hst henough
    have hready : s.definitionTotal external ≤ jumps + st.references.length := by omega
    exact (lawful_soundAccount hd hs ih).runs_fold hst ⟨hf, hsees, hready⟩

theorem lowers_document (layout : Layout) :
    (soundCourse s external []).Runs (fun _ _ => Closure.Flawed ⟨s, [external]⟩)
      { registry := ScopeRegistry.declare {} (Scope.ofExternal external) }
      (s.fold (step (follow (s.definitionTotal external))) [] layout (Scope.ofExternal external))
      fun st' id => Stands s external st' [external] s id := by
  obtain ⟨hst₀, hsees⟩ := sound_external hd
  exact (lawful_soundAccount hd hs (lowers_follow hd hs _)).runs_fold hst₀
    ⟨.root, hsees, Nat.le_add_right _ _⟩

end

end

end Lowering

section

variable {s : Schema} {external : Assoc Schema} {layout : Layout} (hd : DistinctNames s external)
  (hs : LexicallyScoped s external)

include hd hs

/-- **Lowering gives shapes that represent the document.** -/
theorem lower_represents {lowered : Lowered} (h : lower s external layout = .ok lowered) :
    ∃ standing, lowered.Represents s external standing := by
  obtain ⟨root, st, hrun, rfl⟩ := lower_inv h
  obtain ⟨hst, -, hroot⟩ := (Lowering.lowers_document hd hs layout).ok hrun
  refine ⟨Lowering.standing s external st, hroot, ?_⟩
  rintro name c id ⟨place, hmem, hf⟩
  obtain ⟨target, hget, hstands⟩ := hst.settled hmem List.not_mem_nil
  exact ⟨target, hget, hstands hf⟩

/-- **A schema has shapes if and only if it has no flaw**, if it is lexically scoped. -/
theorem lower_isOk_iff :
    (lower s external layout).isOk = true ↔ ¬ Closure.Flawed ⟨s, [external]⟩ := by
  cases hlower : lower s external layout with
  | ok lowered =>
    obtain ⟨standing, hrep⟩ := lower_represents hd hs hlower
    obtain ⟨hordered, hacyclic, -⟩ := lower_tidy (fun _ => True) (fun _ _ _ _ => trivial) trivial
      (fun _ _ => trivial) hlower
    exact iff_of_true rfl (hrep.not_flawed (wellFormed_lower hlower) hordered hacyclic)
  | error e =>
    refine iff_of_false Bool.false_ne_true (not_not.mpr ?_)
    obtain ⟨st, hrun⟩ := lower_error_inv hlower
    exact (Lowering.lowers_document hd hs layout).error hrun

end

end SchemaGrammar
