import SchemaGrammar.Proofs.LoweredTable

/-!
# What keeps a schema from having shapes

A fragment may ask for what has no shape: two unions at once, an empty choice, bounds out of order,
a required property that is not declared. And a definition may stand for itself before anything has
been matched, through references and unions alone. Both are properties of the document, said with
the layers around each fragment and without a run; only fragments count that the document leads to.

A document that has shapes has neither flaw. Everything it leads to is represented in the table, so
it is supported. A definition that stood for itself would give an endless walk: a step through the
document is a step through the table or leads to a smaller fragment, so there would be no end of
steps through the table either, which is finite and has no cycles.

## Main definitions

* `Closure.Uses`, `Closure.Begins`: what the shape of a fragment is made from, and begins with.
* `Closure.Flawed`: a fragment leads to one that has no shape.

## Main results

* `Lowered.Represents.not_flawed`: a document that has shapes has no flaw.
* `Lowering.Sound.leadsTo`: a path through the table of a run is one through the document.
-/

namespace SchemaGrammar

open Json (Value)
open Relation (ReflTransGen TransGen)

/-! ## Flaws of documents -/

namespace Closure

/-- A fragment is a reference, and this is what it means. -/
def RefersTo (c d : Closure) : Prop :=
  ∃ text name, c.schema.criterion = .reference text ∧ definitionName? text = some name ∧
    (c.schema.inner c.env).find? name = some d

/-- What the shape of a fragment is made from. -/
inductive Uses (c : Closure) : Closure → Prop
  | part {t : Schema} (h : t ∈ c.schema.used) : Uses c ⟨t, c.schema.inner c.env⟩
  | target {d : Closure} (h : c.RefersTo d) : Uses c d

/-- A reference begins with what it means, a union with each of its branches. -/
inductive Begins (c : Closure) : Closure → Prop
  | branch {placed : Nat → PlaceStep} {branches : List Schema} {b : Schema}
      (h : c.schema.criterion = .union placed branches) (hb : b ∈ branches) :
      Begins c ⟨b, c.schema.inner c.env⟩
  | target {d : Closure} (h : c.RefersTo d) : Begins c d

/-- A fragment leads to one that is not supported or that stands for itself. -/
def Flawed (c : Closure) : Prop :=
  ∃ d, ReflTransGen Uses c d ∧ (d.schema.isSupported = false ∨ TransGen Begins d d)

variable {c d : Closure}

theorem Flawed.of_unsupported (h : c.schema.isSupported = false) : c.Flawed :=
  ⟨c, .refl, .inl h⟩

theorem Flawed.of_cycle (h : TransGen Begins c c) : c.Flawed := ⟨c, .refl, .inr h⟩

theorem Flawed.of_uses (h : c.Uses d) (hd : d.Flawed) : c.Flawed := by
  obtain ⟨e, hpath, he⟩ := hd
  exact ⟨e, .head h hpath, he⟩

theorem flawed_iff : c.Flawed ↔
    (c.schema.isSupported = false ∨ TransGen Begins c c) ∨ ∃ d, c.Uses d ∧ d.Flawed := by
  constructor
  · rintro ⟨e, hpath, he⟩
    rcases hpath.cases_head with rfl | ⟨d, hcd, hpath⟩
    · exact .inl he
    · exact .inr ⟨d, hcd, e, hpath, he⟩
  · rintro (h | ⟨d, hcd, hd⟩)
    · exact ⟨c, .refl, h⟩
    · exact .of_uses hcd hd

end Closure

/-! ## Paths through shapes -/

/-- Whether a shape stands for others. -/
def Shape.isLink : Shape → Bool
  | .reference _ _ | .union _ => true
  | .terminal _ | .array _ | .object _ | .enumeration _ | .anyJson _ => false

namespace Shapes

/-- Whether the shape at a position stands for others. -/
def isLink (shapes : Shapes) (id : ShapeId) : Bool := (shapes.get? id).any Shape.isLink

variable {shapes : Shapes} {id other : ShapeId}

theorem isLink_of_get? {shape : Shape} (h : shapes.get? id = some shape) :
    shapes.isLink id = shape.isLink := by
  rw [isLink, h, Option.any_some]

theorem Begins.isLink (h : shapes.Begins id other) : shapes.isLink id = true := by
  cases h with
  | target h => exact isLink_of_get? h
  | member h _ => exact isLink_of_get? h

theorem IsLiteral.isLink_eq_false {value : Value} (h : shapes.IsLiteral value id) :
    shapes.isLink id = false := by
  obtain ⟨t, -, hget⟩ := h
  exact isLink_of_get? hget

theorem IsFree.isLink_eq_false (h : shapes.IsFree id) : shapes.isLink id = false := by
  obtain ⟨layout, hget⟩ := h
  exact isLink_of_get? hget

theorem IsChoice.ne_nil (hw : shapes.WellFormed) {members : List ShapeId}
    (h : shapes.IsChoice id members) : members ≠ [] := by
  rcases h with rfl | hget
  · exact List.cons_ne_nil _ _
  · exact hw _ _ hget

end Shapes

section

variable {shapes : Shapes} {standing : Standing} {sub : Schema → ShapeId → Prop} {s t : Schema}
  {env : Env} {id : ShapeId}

theorem RepresentsAs.isLink_eq_false {type : TypeName} (h : RepresentsAs shapes sub s type id) :
    shapes.isLink id = false := by
  cases type with
  | object =>
    obtain ⟨shape, hget, -⟩ := h
    exact Shapes.isLink_of_get? hget
  | array =>
    obtain ⟨shape, hget, -⟩ := h
    exact Shapes.isLink_of_get? hget
  | string =>
    obtain ⟨t, -, hget⟩ := h
    exact Shapes.isLink_of_get? hget
  | _ => exact Shapes.isLink_of_get? h

/-- What is represented is supported. -/
theorem Represents.isSupported (hw : shapes.WellFormed)
    (hr : Represents shapes standing env t id) : t.isSupported = true := by
  have hliteral : ∀ {value id}, shapes.IsLiteral value id →
      (Terminal.ofLiteral value).isOk = true := by
    rintro value id ⟨terminal, hok, -⟩
    rw [hok]
    rfl
  rw [represents_iff] at hr
  unfold Schema.isSupported
  cases hc : t.criterion with
  | reference text => rfl
  | union placed branches =>
    rw [hc] at hr
    obtain ⟨hclash, members, hchoice, hbranches⟩ := hr
    have hne : branches ≠ [] := by
      rintro rfl
      exact hchoice.ne_nil hw (List.forall₂_nil_left_iff.mp hbranches)
    simp [hclash, hne]
  | constant value =>
    rw [hc] at hr
    exact hliteral hr
  | enumeration values =>
    rw [hc] at hr
    obtain ⟨members, hget, hmembers⟩ := hr
    have hne : values ≠ [] := by
      rintro rfl
      exact hw _ _ hget (List.forall₂_nil_left_iff.mp hmembers)
    simp only [Bool.and_eq_true, Bool.not_eq_true', List.isEmpty_eq_false_iff, List.all_eq_true]
    refine ⟨hne, fun value hvalue => ?_⟩
    obtain ⟨m, -, hm⟩ := exists_mem_right hmembers hvalue
    exact hliteral hm
  | types types =>
    rw [hc] at hr
    obtain ⟨members, hchoice, htypes⟩ := hr
    have hne : types ≠ [] := by
      rintro rfl
      exact hchoice.ne_nil hw (List.forall₂_nil_left_iff.mp htypes)
    simp only [Bool.and_eq_true, Bool.not_eq_true', List.isEmpty_eq_false_iff, List.all_eq_true]
    refine ⟨hne, fun type htype => ?_⟩
    obtain ⟨m, -, hm, -⟩ := exists_mem_right htypes htype
    exact hm
  | anything => rfl

/-- A fragment leads to `c` if the shape that represents it does. A choice among one is that one, so
the fragment may be a union around what the shape is. -/
theorem Represents.begins_of_isLink {c : Closure} (hlink : shapes.isLink id = true)
    (hreference : ∀ name d, standing name d id → ReflTransGen Closure.Begins d c)
    (hunion : ∀ members, shapes.get? id = some (.union members) → ∃ m ∈ members,
      shapes.isLink m = true ∧
        ∀ env t, Represents shapes standing env t m → TransGen Closure.Begins ⟨t, env⟩ c)
    (h : Represents shapes standing env t id) : TransGen Closure.Begins ⟨t, env⟩ c := by
  have hleaf : ∀ {P : Prop}, shapes.isLink id = false → P := fun hleaf =>
    absurd hlink (by rw [hleaf]; exact Bool.false_ne_true)
  let Y : Env → Schema → ShapeId → Prop := fun env t id' => id' = id →
    TransGen Closure.Begins ⟨t, env⟩ c
  refine Represents.induction (Y := Y) ?_ h rfl
  rintro env t _ hstep rfl
  cases hc : t.criterion with
  | reference text =>
    rw [hc] at hstep
    obtain ⟨name, d, hname, hfind, hstanding⟩ := hstep
    exact .head' (.target ⟨text, name, hc, hname, hfind⟩) (hreference name d hstanding)
  | union placed branches =>
    rw [hc] at hstep
    obtain ⟨-, members, rfl | hget, hbranches⟩ := hstep
    · obtain ⟨b, hb, -, hpath⟩ := exists_mem_left hbranches (List.mem_singleton.mpr rfl)
      exact .head (.branch hc hb) (hpath rfl)
    · obtain ⟨m, hm, -, hpath⟩ := hunion members hget
      obtain ⟨b, hb, hr, -⟩ := exists_mem_left hbranches hm
      exact .head (.branch hc hb) (hpath _ _ hr)
  | constant value =>
    rw [hc] at hstep
    exact hleaf hstep.isLink_eq_false
  | enumeration values =>
    rw [hc] at hstep
    obtain ⟨members, hget, -⟩ := hstep
    exact hleaf (Shapes.isLink_of_get? hget)
  | types types =>
    rw [hc] at hstep
    obtain ⟨members, rfl | hget, htypes⟩ := hstep
    · obtain ⟨type, -, -, hr⟩ := exists_mem_left htypes (List.mem_singleton.mpr rfl)
      exact hleaf hr.isLink_eq_false
    · obtain ⟨m, hm, hmlink, -⟩ := hunion members hget
      obtain ⟨type, -, -, hr⟩ := exists_mem_left htypes hm
      exact absurd hmlink (by rw [hr.isLink_eq_false]; exact Bool.false_ne_true)
  | anything =>
    rw [hc] at hstep
    exact hleaf (Shapes.IsFree.isLink_eq_false hstep)

end

namespace Lowering

variable {s t : Schema} {external : Assoc Schema} {waiting : List ShapeId} {st : Lowering}
  {env : Env} {name name' : String} {c c' : Closure} {id goal target : ShapeId}

theorem Sound.standing_unique (hd : DistinctNames s external) (hst : Sound s external waiting st)
    (h : standing s external st name c id) (h' : standing s external st name' c' id) : c = c' := by
  obtain ⟨place, hmem, hf⟩ := h
  obtain ⟨place', hmem', hf'⟩ := h'
  obtain ⟨-, rfl⟩ := Prod.mk.inj (hst.unique hmem hmem')
  obtain ⟨henv, hschema⟩ := hf.unique hd hf'
  obtain ⟨schema, env⟩ := c
  obtain ⟨schema', env'⟩ := c'
  exact Closure.mk.injEq _ _ _ _ ▸ ⟨hschema, henv⟩

theorem Sound.get?_standing (hst : Sound s external waiting st)
    (h : standing s external st name c id) :
    ∃ target, st.shapes.get? id = some (.reference name target) := by
  obtain ⟨place, hmem, -⟩ := h
  exact hst.present hmem

/-- A shape that has a target does not wait for it. -/
theorem Sound.stands_target (hst : Sound s external waiting st)
    (h : standing s external st name c id)
    (hget : st.shapes.get? id = some (.reference name' (some target))) :
    Stands s external st c.env c.schema target := by
  obtain ⟨place, hmem, hf⟩ := h
  have hw : id ∉ waiting := by
    intro hw
    obtain ⟨key, -, hopen⟩ := hst.waits id hw
    cases hopen.symm.trans hget
  obtain ⟨found, hfound, hstands⟩ := hst.settled hmem hw
  cases hfound.symm.trans hget
  exact hstands hf

/-- **A path through the table is one through the document.** If the shape of a fragment leads to
what stands for a definition, the fragment leads to the definition. -/
theorem Sound.leadsTo (hd : DistinctNames s external) (hst : Sound s external waiting st)
    (hgoal : standing s external st name c goal)
    (hpath : ReflTransGen st.shapes.Begins id goal) (h : Stands s external st env t id) :
    TransGen Closure.Begins ⟨t, env⟩ c := by
  have hboth : st.shapes.isLink id = true ∧
      ∀ env t, Stands s external st env t id → TransGen Closure.Begins ⟨t, env⟩ c := by
    clear h
    induction hpath using ReflTransGen.head_induction_on with
    | refl =>
      obtain ⟨target, hget⟩ := hst.get?_standing hgoal
      have hlink : st.shapes.isLink goal = true := Shapes.isLink_of_get? hget
      refine ⟨hlink, fun env t => Represents.begins_of_isLink hlink (fun name' d hstanding => ?_)
        fun members hunion => ?_⟩
      · exact hst.standing_unique hd hstanding hgoal ▸ .refl
      · cases hget.symm.trans hunion
    | @head x y hstep _ ih =>
      refine ⟨hstep.isLink, fun env t => Represents.begins_of_isLink hstep.isLink
        (fun name' d hstanding => ?_) fun members hunion => ?_⟩
      · cases hstep with
        | target hget => exact (ih.2 _ _ (hst.stands_target hstanding hget)).to_reflTransGen
        | member hget _ =>
          obtain ⟨target, hreference⟩ := hst.get?_standing hstanding
          cases hget.symm.trans hreference
      · cases hstep with
        | target hget => cases hget.symm.trans hunion
        | member hget hm =>
          cases hget.symm.trans hunion
          exact ⟨y, hm, ih⟩
  exact hboth.2 env t h

end Lowering

/-! ## Documents that have shapes -/

theorem RepresentsAs.exists_part {shapes : Shapes} {sub : Schema → ShapeId → Prop} {s t : Schema}
    {type : TypeName} {id : ShapeId} (h : RepresentsAs shapes sub s type id)
    (ht : t ∈ s.partsFor type) : ∃ part, sub t part := by
  cases type with
  | object =>
    obtain ⟨shape, -, hproperties, hmore⟩ := h
    rcases List.mem_append.mp ht with ht | ht
    · obtain ⟨e, he, rfl⟩ := List.mem_map.mp ht
      obtain ⟨p, -, -, -, hsub⟩ := exists_mem_right hproperties he
      exact ⟨p.value, hsub⟩
    · rw [Schema.additional_eq_of_mem ht] at hmore
      obtain ⟨part, -, hsub⟩ := hmore
      exact ⟨part, hsub⟩
  | array =>
    obtain ⟨shape, -, -, hleading, hitems⟩ := h
    rcases List.mem_append.mp ht with ht | ht
    · obtain ⟨part, -, hsub⟩ := exists_mem_right hleading ht
      exact ⟨part, hsub⟩
    · rw [Option.mem_toList.mp ht] at hitems
      exact ⟨shape.items, hitems⟩
  | _ => cases ht

namespace Lowered.Represents

variable {lowered : Lowered} {s t : Schema} {external : Assoc Schema} {standing : Standing}
  {env : Env} {c d : Closure} {id : ShapeId}

theorem exists_target (h : lowered.Represents s external standing)
    (hr : SchemaGrammar.Represents lowered.shapes standing c.env c.schema id)
    (hd : c.RefersTo d) : ∃ target, lowered.shapes.Begins id target ∧
      SchemaGrammar.Represents lowered.shapes standing d.env d.schema target := by
  obtain ⟨text, name, hc, hname, hfind⟩ := hd
  rw [represents_iff, hc] at hr
  obtain ⟨name', d', hname', hfind', hstanding⟩ := hr
  cases hname.symm.trans hname'
  cases hfind.symm.trans hfind'
  obtain ⟨target, hget, hbody⟩ := h.settled name d id hstanding
  exact ⟨target, .target hget, hbody⟩

/-- What the shape of a fragment is made from is represented. -/
theorem exists_of_uses (h : lowered.Represents s external standing)
    (hr : SchemaGrammar.Represents lowered.shapes standing c.env c.schema id) (hu : c.Uses d) :
    ∃ other, SchemaGrammar.Represents lowered.shapes standing d.env d.schema other := by
  cases hu with
  | target hd =>
    obtain ⟨target, -, hbody⟩ := h.exists_target hr hd
    exact ⟨target, hbody⟩
  | @part t ht =>
    rw [represents_iff] at hr
    cases hc : c.schema.criterion with
    | union placed branches =>
      rw [hc] at hr
      rw [Schema.used_of_union hc] at ht
      obtain ⟨-, members, -, hbranches⟩ := hr
      obtain ⟨m, -, hm⟩ := exists_mem_right hbranches ht
      exact ⟨m, hm⟩
    | types types =>
      rw [hc] at hr
      rw [Schema.used_of_types hc] at ht
      obtain ⟨type, htype, ht⟩ := List.mem_flatMap.mp ht
      obtain ⟨members, -, htypes⟩ := hr
      obtain ⟨m, -, -, hm⟩ := exists_mem_right htypes htype
      exact hm.exists_part ht
    | _ =>
      rw [Schema.used, hc] at ht
      cases ht

theorem exists_of_reflTransGen (h : lowered.Represents s external standing)
    (hr : SchemaGrammar.Represents lowered.shapes standing c.env c.schema id)
    (hpath : ReflTransGen Closure.Uses c d) :
    ∃ other, SchemaGrammar.Represents lowered.shapes standing d.env d.schema other := by
  induction hpath with
  | refl => exact ⟨id, hr⟩
  | tail _ hu ih =>
    obtain ⟨other, hother⟩ := ih
    exact h.exists_of_uses hother hu

/-- A step through the document is one through the table, or leads to a smaller fragment that the
same shape represents. -/
theorem exists_of_begins (h : lowered.Represents s external standing)
    (hr : SchemaGrammar.Represents lowered.shapes standing c.env c.schema id) (hb : c.Begins d) :
    ∃ other, SchemaGrammar.Represents lowered.shapes standing d.env d.schema other ∧
      (lowered.shapes.Begins id other ∨ other = id ∧ sizeOf d.schema < sizeOf c.schema) := by
  cases hb with
  | target hd =>
    obtain ⟨target, hstep, hbody⟩ := h.exists_target hr hd
    exact ⟨target, hbody, .inl hstep⟩
  | branch hc hb =>
    rw [represents_iff, hc] at hr
    obtain ⟨-, members, hchoice, hbranches⟩ := hr
    obtain ⟨m, hm, hbody⟩ := exists_mem_right hbranches hb
    refine ⟨m, hbody, ?_⟩
    rcases hchoice with rfl | hget
    · obtain ⟨i, hi⟩ := Schema.exists_mem_zipIdx hb
      exact .inr ⟨List.mem_singleton.mp hm,
        Schema.sizeOf_lt_of_mem_children (Schema.mem_children_of_criterion hc hi)⟩
    · exact .inl (.member hget hm)

theorem exists_of_transGen (h : lowered.Represents s external standing)
    (hr : SchemaGrammar.Represents lowered.shapes standing c.env c.schema id)
    (hpath : TransGen Closure.Begins c d) :
    ∃ other, SchemaGrammar.Represents lowered.shapes standing d.env d.schema other ∧
      (TransGen lowered.shapes.Begins id other ∨ other = id ∧ sizeOf d.schema < sizeOf c.schema) := by
  induction hpath with
  | single hb =>
    obtain ⟨other, hother, hstep⟩ := h.exists_of_begins hr hb
    exact ⟨other, hother, hstep.imp_left .single⟩
  | tail _ hb ih =>
    obtain ⟨mid, hmid, hpath⟩ := ih
    obtain ⟨other, hother, hstep⟩ := h.exists_of_begins hmid hb
    refine ⟨other, hother, ?_⟩
    rcases hpath with hpath | ⟨rfl, hlt⟩
    · rcases hstep with hstep | ⟨rfl, -⟩
      · exact .inl (hpath.tail hstep)
      · exact .inl hpath
    · exact hstep.imp .single fun ⟨heq, hlt'⟩ => ⟨heq, hlt'.trans hlt⟩

/-- A cycle of the document makes a path of the table between two shapes of one fragment. -/
theorem exists_of_cycle (h : lowered.Represents s external standing)
    (hr : SchemaGrammar.Represents lowered.shapes standing c.env c.schema id)
    (hcycle : TransGen Closure.Begins c c) :
    ∃ other, SchemaGrammar.Represents lowered.shapes standing c.env c.schema other ∧
      TransGen lowered.shapes.Begins id other := by
  obtain ⟨other, hother, hpath | ⟨-, hlt⟩⟩ := h.exists_of_transGen hr hcycle
  · exact ⟨other, hother, hpath⟩
  · exact absurd hlt (Nat.lt_irrefl _)

/-- No fragment that is represented stands for itself. -/
theorem not_cycle (h : lowered.Represents s external standing) (ho : lowered.shapes.Ordered)
    (ha : lowered.shapes.Acyclic)
    (hr : SchemaGrammar.Represents lowered.shapes standing c.env c.schema id) :
    ¬ TransGen Closure.Begins c c := by
  intro hcycle
  -- Going around leads from shape to shape; there are finitely many, and none twice.
  let r : ShapeId → ShapeId → Prop := fun other id => TransGen lowered.shapes.Begins id other
  have : IsStrictOrder ShapeId r :=
    { irrefl := ha
      trans := fun _ _ _ h h' => h'.trans h }
  have hfinite : (Set.Iio lowered.shapes.size).WellFoundedOn r := (Set.finite_Iio _).wellFoundedOn
  have hbound : ∀ {id other}, TransGen lowered.shapes.Begins id other →
      other ∈ Set.Iio lowered.shapes.size := by
    intro id other hpath
    obtain ⟨mid, -, hstep⟩ := TransGen.tail'_iff.mp hpath
    exact ho.begins hstep
  obtain ⟨first, hfirst, hpath⟩ := h.exists_of_cycle hr hcycle
  refine hfinite.induction (P := fun id =>
    ¬ SchemaGrammar.Represents lowered.shapes standing c.env c.schema id) (hbound hpath)
    (fun id _ ih hid => ?_) hfirst
  obtain ⟨other, hother, hnext⟩ := h.exists_of_cycle hid hcycle
  exact ih other (hbound hnext) hnext hother

/-- **A document that has shapes has no flaw.** -/
theorem not_flawed (h : lowered.Represents s external standing) (hw : lowered.shapes.WellFormed)
    (ho : lowered.shapes.Ordered) (ha : lowered.shapes.Acyclic) :
    ¬ Closure.Flawed ⟨s, [external]⟩ := by
  rintro ⟨d, hpath, hflaw⟩
  obtain ⟨id, hr⟩ := h.exists_of_reflTransGen (c := ⟨s, [external]⟩) h.root hpath
  rcases hflaw with hflaw | hcycle
  · rw [hr.isSupported hw] at hflaw
    cases hflaw
  · exact h.not_cycle ho ha hr hcycle

end Lowered.Represents

end SchemaGrammar
