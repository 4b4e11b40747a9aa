import SchemaGrammar.Proofs.CheckRun
import SchemaGrammar.Proofs.LoweringOutcome

/-!
# Checking agrees with the shapes

The values that a lexically scoped schema accepts are those that have the shape it is lowered to.
Both sides are least solutions of equations, of those for fragments and of those for shapes, and a
shape that represents a fragment has the same equation. So each solution is below what the other
one says, by induction over the finite argument that a value is admitted.

## Main results

* `Lowered.Represents.admits_iff`: a document admits the values that have the shape of the root.
* `validate_iff_admits`: checking accepts these values.
-/

namespace SchemaGrammar

open Json (Value)

/-! ## Leaves -/

theorem Json.Number.same_comm (m n : Json.Number) : m.same n = n.same m := by
  cases m with
  | integer m =>
    cases n with
    | integer n => exact Bool.beq_comm
    | real y => rfl
  | real x =>
    cases n with
    | integer n => rfl
    | real y =>
      have h : ∀ {x y : Float}, (x == y) = true → (y == x) = true := by
        intro x y hxy
        rw [Float.beq_iff_ne_nan_and_eq] at hxy ⊢
        obtain ⟨hx, hy, heq | ⟨hx0, hy0⟩ | ⟨hx0, hy0⟩⟩ := hxy
        · exact ⟨hy, hx, .inl heq.symm⟩
        · exact ⟨hy, hx, .inr (.inr ⟨hy0, hx0⟩)⟩
        · exact ⟨hy, hx, .inr (.inl ⟨hy0, hx0⟩)⟩
      exact Bool.eq_iff_iff.mpr ⟨h, h⟩

/-- The leaf of a literal allows the values that are equal to it. -/
theorem Terminal.admits_ofLiteral {literal : Value} {t : Terminal}
    (h : Terminal.ofLiteral literal = .ok t) (v : Value) : t.admits v = literal.same v := by
  cases literal with
  | array items => cases h
  | object members => cases h
  | _ =>
    cases h
    cases v <;> simp [Terminal.admits, Json.Value.same]

theorem Terminal.same_comm_of_ofLiteral {literal : Value} {t : Terminal}
    (h : Terminal.ofLiteral literal = .ok t) (v : Value) : v.same literal = literal.same v := by
  cases literal with
  | array items => cases h
  | object members => cases h
  | number n => cases v <;> simp [Json.Value.same, Json.Number.same_comm]
  | null => cases v <;> simp [Json.Value.same]
  | bool b => cases v <;> simp [Json.Value.same, Bool.beq_comm]
  | string s => cases v <;> simp [Json.Value.same, Bool.beq_comm]

/-- The leaf of a string is that of its format or, if there is none, that of its bounds. -/
theorem Lowering.stringTerminal_cases {s : Schema} {t : Terminal}
    (h : Lowering.stringTerminal s = .ok t) :
    (∃ format, s.textFormat? = some format ∧ t = .format format) ∨
      (s.textFormat? = none ∧ t = .string ⟨s.minLength.getD 0, s.maxLength⟩ ∧
        s.maxLength.map (max · (s.minLength.getD 0)) = s.maxLength) := by
  unfold Lowering.stringTerminal at h
  split at h
  · next format hformat =>
    exact .inl ⟨format, hformat, (Except.ok.inj h).symm⟩
  · next hformat hmost =>
    exact .inr ⟨hformat, hmost ▸ (Except.ok.inj h).symm, by rw [hmost]; rfl⟩
  · next most hformat hmost =>
    split_ifs at h with hlt
    have hmax : max most (s.minLength.getD 0) = most := by omega
    exact .inr ⟨hformat, hmost ▸ (Except.ok.inj h).symm, by rw [hmost, Option.map_some, hmax]⟩

/-- The leaf of a string allows the strings that the fragment does. -/
theorem Lowering.admits_stringTerminal {s : Schema} {t : Terminal}
    (h : Lowering.stringTerminal s = .ok t) (sub : Schema → Value → Prop) (v : Value) :
    t.admits v = true ↔ s.AdmitsAs sub .string v := by
  obtain ⟨format, hformat, rfl⟩ | ⟨hformat, rfl, hmost⟩ := Lowering.stringTerminal_cases h
  · cases v with
    | string text => simp [Terminal.admits, Schema.AdmitsAs, Schema.admitsText, hformat]
    | _ => simp [Terminal.admits, Schema.AdmitsAs, TypeName.admits]
  · cases v with
    | string text => simp [Terminal.admits, Schema.AdmitsAs, Schema.admitsText, hformat, hmost]
    | _ => simp [Terminal.admits, Schema.AdmitsAs, TypeName.admits]

/-! ## One type of a fragment -/

section

variable {shapes : Shapes} {sub : Schema → ShapeId → Prop} {s : Schema}
  {X : ShapeId → Value → Prop} {Y : Schema → Value → Prop}

theorem RepresentsMore.admits (h : ∀ c id v, sub c id → X id v → Y c v)
    {more : Option (Additional Schema)} {extra : Option ShapeId}
    (hm : RepresentsMore shapes sub more extra) {id : ShapeId} (hid : extra = some id) {v : Value}
    (hx : X id v) :
    more.any Additional.isOpen = true ∧ ∀ c, more = some (.schema c) → Y c v := by
  rcases more with _ | (_ | _) | c
  · cases hm.symm.trans hid
  · cases hm.symm.trans hid
  · exact ⟨rfl, fun c hc => by cases hc⟩
  · obtain ⟨id', hid', hsub⟩ := hm
    cases hid'.symm.trans hid
    refine ⟨rfl, fun c' hc' => ?_⟩
    cases hc'
    exact h _ _ _ hsub hx

theorem RepresentsMore.holds (h : ∀ c id v, sub c id → Y c v → X id v)
    (hfree : ∀ id v, shapes.IsFree id → X id v) {more : Option (Additional Schema)}
    {extra : Option ShapeId} (hm : RepresentsMore shapes sub more extra) {v : Value}
    (hopen : more.any Additional.isOpen = true) (hy : ∀ c, more = some (.schema c) → Y c v) :
    ∃ id, extra = some id ∧ X id v := by
  rcases more with _ | (_ | _) | c
  · cases hopen
  · cases hopen
  · obtain ⟨id, hid, hf⟩ := hm
    exact ⟨id, hid, hfree id v hf⟩
  · obtain ⟨id, hid, hsub⟩ := hm
    exact ⟨id, hid, h _ _ _ hsub (hy c rfl)⟩

/-- The shape of an item represents the fragment of the item, or any value is allowed there. -/
theorem RepresentsItems.itemAt {shape : ArrayShape}
    (hleading : List.Forall₂ sub (s.prefixItems.getD []) shape.leading)
    (hitems : RepresentsItems shapes sub s.items shape.items) (i : Nat) :
    RepresentsItems shapes sub (s.itemAt? i) (shape.itemAt i) := by
  have hlength := hleading.length_eq
  unfold Schema.itemAt? ArrayShape.itemAt
  by_cases hi : i < (s.prefixItems.getD []).length
  · rw [List.getElem?_eq_getElem hi, List.getElem?_eq_getElem (hlength ▸ hi)]
    exact hleading.get hi (hlength ▸ hi)
  · rw [List.getElem?_eq_none (by omega), List.getElem?_eq_none (by omega)]
    exact hitems

/-- What has the shape of a fragment for a type is what the fragment asks for that type. -/
theorem RepresentsAs.admitsAs (h : ∀ c id v, sub c id → X id v → Y c v) {type : TypeName}
    {id : ShapeId} (hr : RepresentsAs shapes sub s type id) {shape : Shape}
    (hget : shapes.get? id = some shape) {v : Value} (hv : shape.Holds X v) :
    s.AdmitsAs Y type v := by
  cases type with
  | object =>
    obtain ⟨object, hget', hproperties, hmore⟩ := hr
    cases hget.symm.trans hget'
    cases v with
    | object members =>
      obtain ⟨hrequired, hdeclared, hothers⟩ := hv
      refine ⟨fun m hm hkey => ?_, fun key hkey hreq => ?_, fun e he v hv => ?_⟩
      · have hnot : m.1 ∉ object.properties.map Property.key := by
          rw [map_key_eq hproperties, ← Assoc.contains_iff, hkey]
          exact Bool.false_ne_true
        obtain ⟨extra, hextra, hx⟩ := hothers m hm hnot
        exact hmore.admits h hextra hx
      · obtain ⟨e, he, rfl⟩ := List.mem_map.mp hkey
        obtain ⟨p, hp, hpkey, hpreq, -⟩ := exists_mem_right hproperties he
        rw [← hpkey]
        exact hrequired p hp (hpreq.trans hreq)
      · obtain ⟨p, hp, hpkey, -, hsub⟩ := exists_mem_right hproperties he
        exact h _ _ _ hsub (hdeclared p hp v (hpkey ▸ hv))
    | _ => exact absurd hv (by simp [Shape.Holds])
  | array =>
    obtain ⟨array, hget', hcount, hleading, hitems⟩ := hr
    cases hget.symm.trans hget'
    cases v with
    | array values =>
      refine ⟨(hcount _).symm.trans hv.1, fun i v c hv' hc => ?_⟩
      have hi := RepresentsItems.itemAt hleading hitems i
      rw [hc] at hi
      exact h _ _ _ hi (hv.2 i v hv')
    | _ => exact absurd hv (by simp [Shape.Holds])
  | string =>
    obtain ⟨t, ht, hget'⟩ := hr
    cases hget.symm.trans hget'
    exact (Lowering.admits_stringTerminal ht Y v).mp hv
  | number | integer | boolean | null =>
    cases hget.symm.trans hr
    cases v with
    | number n =>
      cases n <;> simp_all [Shape.Holds, Terminal.admits, Schema.AdmitsAs, TypeName.admits]
    | _ => simp_all [Shape.Holds, Terminal.admits, Schema.AdmitsAs, TypeName.admits]

theorem Shapes.IsFree.admits {id : ShapeId} (h : shapes.IsFree id) (v : Value) :
    shapes.Admits id v := by
  obtain ⟨layout, hget⟩ := h
  exact (Shapes.admits_iff hget).mpr trivial

/-- What a fragment asks for a type has the shape of the fragment for that type. -/
theorem RepresentsAs.holds (h : ∀ c id v, sub c id → Y c v → X id v)
    (hfree : ∀ id v, shapes.IsFree id → X id v) {type : TypeName} {id : ShapeId}
    (hr : RepresentsAs shapes sub s type id) {v : Value} (hv : s.AdmitsAs Y type v) :
    ∃ shape, shapes.get? id = some shape ∧ shape.Holds X v := by
  cases type with
  | object =>
    obtain ⟨object, hget, hproperties, hmore⟩ := hr
    refine ⟨_, hget, ?_⟩
    cases v with
    | object members =>
      obtain ⟨hothers, hrequired, hdeclared⟩ := hv
      refine ⟨fun p hp hreq => ?_, fun p hp v hv => ?_, fun m hm hkey => ?_⟩
      · obtain ⟨e, he, hpkey, hpreq, -⟩ := exists_mem_left hproperties hp
        rw [hpkey]
        exact hrequired _ (List.mem_map.mpr ⟨e, he, rfl⟩) (hpreq.symm.trans hreq)
      · obtain ⟨e, he, hpkey, -, hsub⟩ := exists_mem_left hproperties hp
        exact h _ _ _ hsub (hdeclared e he v (hpkey ▸ hv))
      · rw [map_key_eq hproperties, ← Assoc.contains_iff, Bool.not_eq_true] at hkey
        obtain ⟨hopen, hy⟩ := hothers m hm hkey
        exact hmore.holds h hfree hopen hy
    | _ => exact absurd hv (by simp [Schema.AdmitsAs, TypeName.admits])
  | array =>
    obtain ⟨array, hget, hcount, hleading, hitems⟩ := hr
    refine ⟨_, hget, ?_⟩
    cases v with
    | array values =>
      refine ⟨(hcount _).trans hv.1, fun i v hv' => ?_⟩
      have hi := RepresentsItems.itemAt hleading hitems i
      cases hc : s.itemAt? i with
      | none =>
        rw [hc] at hi
        exact hfree _ v hi
      | some c =>
        rw [hc] at hi
        exact h _ _ _ hi (hv.2 i v c hv' hc)
    | _ => exact absurd hv (by simp [Schema.AdmitsAs, TypeName.admits])
  | string =>
    obtain ⟨t, ht, hget⟩ := hr
    exact ⟨_, hget, (Lowering.admits_stringTerminal ht Y v).mpr hv⟩
  | number | integer | boolean | null =>
    refine ⟨_, hr, ?_⟩
    cases v with
    | number n =>
      cases n <;> simp_all [Shape.Holds, Terminal.admits, Schema.AdmitsAs, TypeName.admits]
    | _ => simp_all [Shape.Holds, Terminal.admits, Schema.AdmitsAs, TypeName.admits]

theorem RepresentsAs.admits (h : ∀ c id v, sub c id → Y c v → shapes.Admits id v)
    {type : TypeName} {id : ShapeId} (hr : RepresentsAs shapes sub s type id) {v : Value}
    (hv : s.AdmitsAs Y type v) : shapes.Admits id v := by
  obtain ⟨shape, hget, hholds⟩ := hr.holds h (fun _ v hf => hf.admits v) hv
  exact (Shapes.admits_iff hget).mpr hholds

end

/-! ## Both directions -/

section

variable {shapes : Shapes} {id : ShapeId} {v : Value}

theorem Shapes.IsChoice.admits_iff {members : List ShapeId} (h : shapes.IsChoice id members) :
    shapes.Admits id v ↔ ∃ m ∈ members, shapes.Admits m v := by
  obtain rfl | hget := h
  · simp
  · exact Shapes.admits_iff hget

theorem Shapes.IsChoice.holds {members : List ShapeId} (h : shapes.IsChoice id members)
    {shape : Shape} (hget : shapes.get? id = some shape) {X : ShapeId → Value → Prop}
    (hs : shape.Holds X v) : members = [id] ∨ ∃ m ∈ members, X m v := by
  obtain heq | hget' := h
  · exact .inl heq
  · cases hget.symm.trans hget'
    exact .inr hs

theorem Shapes.IsLiteral.admits_iff {literal : Value} (h : shapes.IsLiteral literal id) :
    shapes.Admits id v ↔ literal.same v = true := by
  obtain ⟨t, ht, hget⟩ := h
  rw [Shapes.admits_iff hget, ← Terminal.admits_ofLiteral ht]
  exact Iff.rfl

theorem Shapes.IsLiteral.same_comm {literal : Value} (h : shapes.IsLiteral literal id) :
    v.same literal = literal.same v := by
  obtain ⟨t, ht, -⟩ := h
  exact Terminal.same_comm_of_ofLiteral ht v

end

namespace Lowered.Represents

variable {lowered : Lowered} {s : Schema} {external : Assoc Schema} {standing : Standing}

/-- What a fragment admits has the shape that represents it. -/
theorem admits_of_schema (h : lowered.Represents s external standing) {env : Env} {t : Schema}
    {id : ShapeId} {v : Value} (hr : SchemaGrammar.Represents lowered.shapes standing env t id)
    (hv : Schema.Admits noDemand ∅ env t v) : lowered.shapes.Admits id v := by
  let Y : Schema.Meaning := fun _ env t v => ∀ id,
    SchemaGrammar.Represents lowered.shapes standing env t id → lowered.shapes.Admits id v
  refine Schema.Admits.induction (Y := Y) (fun _ env t v hm _ id hr => ?_) hv id hr
  rw [represents_iff] at hr
  cases hc : t.criterion with
  | reference text =>
    rw [hc] at hm hr
    obtain ⟨name, c, hname, hfind, -, hy⟩ := hm
    obtain ⟨name', c', hname', hfind', hstanding⟩ := hr
    cases hname.symm.trans hname'
    cases hfind.symm.trans hfind'
    obtain ⟨target, hget, hbody⟩ := h.settled name c id hstanding
    exact (Shapes.admits_iff hget).mpr ⟨target, rfl, hy target hbody⟩
  | union placed branches =>
    rw [hc] at hm hr
    obtain ⟨b, hb, hy⟩ := hm
    obtain ⟨-, members, hchoice, hbranches⟩ := hr
    obtain ⟨m, hm, hbm⟩ := exists_mem_right hbranches hb
    exact hchoice.admits_iff.mpr ⟨m, hm, hy m hbm⟩
  | constant expected =>
    rw [hc] at hm hr
    exact hr.admits_iff.mpr (hr.same_comm.symm.trans hm)
  | enumeration values =>
    rw [hc] at hm hr
    obtain ⟨value, hvalue, hsame⟩ := hm
    obtain ⟨members, hget, hmembers⟩ := hr
    obtain ⟨m, hm, hliteral⟩ := exists_mem_right hmembers hvalue
    exact (Shapes.admits_iff hget).mpr ⟨m, hm, hliteral.admits_iff.mpr hsame⟩
  | types types =>
    rw [hc] at hm hr
    obtain ⟨type, htype, hv⟩ := hm
    obtain ⟨members, hchoice, htypes⟩ := hr
    obtain ⟨m, hm, -, hrm⟩ := exists_mem_right htypes htype
    exact hchoice.admits_iff.mpr ⟨m, hm, hrm.admits (fun c id v hr hy => hy id hr) hv⟩
  | anything =>
    rw [hc] at hr
    exact Shapes.IsFree.admits hr v

/-- What has the shape that represents a fragment is admitted by the fragment. -/
theorem schema_of_admits (h : lowered.Represents s external standing) {env : Env} {t : Schema}
    {id : ShapeId} {v : Value} (hr : SchemaGrammar.Represents lowered.shapes standing env t id)
    (hv : lowered.shapes.Admits id v) : Schema.Admits noDemand ∅ env t v := by
  -- A member of a choice represents a fragment, or a type of one, or a literal.
  let Y : ShapeId → Value → Prop := fun id v => lowered.shapes.Admits id v ∧
    (∀ env t, SchemaGrammar.Represents lowered.shapes standing env t id →
      Schema.Admits noDemand ∅ env t v) ∧
    ∀ env t type, RepresentsAs lowered.shapes (SchemaGrammar.Represents lowered.shapes standing env)
      t type id → t.AdmitsAs (Schema.Admits noDemand ∅ env) type v
  have hY : Y id v := by
    refine Shapes.Admits.induction (fun id shape v hget hs => ?_) hv
    have hadmits : lowered.shapes.Admits id v :=
      (Shapes.admits_iff hget).mpr (hs.mono fun _ _ hy => hy.1)
    have htyped : ∀ env t type, RepresentsAs lowered.shapes
        (SchemaGrammar.Represents lowered.shapes standing env) t type id →
        t.AdmitsAs (Schema.Admits noDemand ∅ env) type v := fun env t type hr =>
      hr.admitsAs (fun c id v hr hy => hy.2.1 env c hr) hget hs
    refine ⟨hadmits, fun env t hr => ?_, htyped⟩
    -- A choice among one is that one, so the same shape may represent a branch of the fragment.
    let Z : Env → Schema → ShapeId → Prop := fun env t id' => id' = id →
      Schema.Admits noDemand ∅ env t v
    refine SchemaGrammar.Represents.induction (Y := Z) ?_ hr rfl
    rintro env t _ hstep rfl
    refine Schema.admits_iff.mpr ⟨?_, rfl⟩
    cases hc : t.criterion with
    | reference text =>
      rw [hc] at hstep
      obtain ⟨name, c, hname, hfind, hstanding⟩ := hstep
      obtain ⟨target, hget', hbody⟩ := h.settled name c _ hstanding
      cases hget.symm.trans hget'
      obtain ⟨_, htarget, hy⟩ := hs
      cases htarget
      exact ⟨name, c, hname, hfind, Set.notMem_empty c, hy.2.1 _ _ hbody⟩
    | union placed branches =>
      rw [hc] at hstep
      obtain ⟨-, members, hchoice, hbranches⟩ := hstep
      obtain rfl | ⟨m, hm, hy⟩ := hchoice.holds hget hs
      · obtain ⟨b, hb, hz⟩ := exists_mem_left hbranches (List.mem_singleton.mpr rfl)
        exact ⟨b, hb, hz.2 rfl⟩
      · obtain ⟨b, hb, hz⟩ := exists_mem_left hbranches hm
        exact ⟨b, hb, hy.2.1 _ _ hz.1⟩
    | constant expected =>
      rw [hc] at hstep
      exact hstep.same_comm.trans (hstep.admits_iff.mp hadmits)
    | enumeration values =>
      rw [hc] at hstep
      obtain ⟨members, hget', hmembers⟩ := hstep
      cases hget.symm.trans hget'
      obtain ⟨m, hm, hy⟩ := hs
      obtain ⟨value, hvalue, hliteral⟩ := exists_mem_left hmembers hm
      exact ⟨value, hvalue, hliteral.admits_iff.mp hy.1⟩
    | types types =>
      rw [hc] at hstep
      obtain ⟨members, hchoice, htypes⟩ := hstep
      replace htypes := htypes.imp fun type m hr =>
        hr.2.mono (.refl _) fun c id hz => hz.1
      obtain rfl | ⟨m, hm, hy⟩ := hchoice.holds hget hs
      · obtain ⟨type, htype, hr⟩ := exists_mem_left htypes (List.mem_singleton.mpr rfl)
        exact ⟨type, htype, htyped _ _ _ hr⟩
      · obtain ⟨type, htype, hr⟩ := exists_mem_left htypes hm
        exact ⟨type, htype, hy.2.2 _ _ _ hr⟩
    | anything => trivial
  exact hY.2.1 env t hr

/-- **A document admits the values that have the shape of the root.** -/
theorem admits_iff (h : lowered.Represents s external standing) (v : Value) :
    Schema.Admits noDemand ∅ [external] s v ↔ lowered.shapes.Admits lowered.root v :=
  ⟨h.admits_of_schema h.root, h.schema_of_admits h.root⟩

end Lowered.Represents

/-- **Checking agrees with the shapes.** For a lexically scoped schema that has shapes, a value
passes the check if and only if it has the shape of the root. -/
theorem validate_iff_admits {s : Schema} {external : Assoc Schema} {layout : Layout}
    {lowered : Lowered} (hd : DistinctNames s external) (hs : LexicallyScoped s external)
    (h : lower s external layout = .ok lowered) (v : Value) :
    validate s external v = .ok () ↔ lowered.shapes.Admits lowered.root v := by
  obtain ⟨standing, hrep⟩ := lower_represents hd hs h
  rw [← validateUnder_noDemand, validateUnder_iff hd hs, hrep.admits_iff]

/-- A chain of objects, each with a leaf. The name of the definition is declared again around the
leaf, where it means a number. -/
def chainSchema : Schema :=
  { reference := some "#/$defs/node"
    definitions := some [("node",
      { types := some (.one .object)
        properties := some
          [("next", { reference := some "#/$defs/node" }),
           ("leaf", { reference := some "#/$defs/node"
                      definitions := some [("node", { types := some (.one .integer) })] })]
        required := some ["leaf"] })] }

theorem validate_chainSchema_iff :
    ∃ lowered, lower chainSchema [] ⟨true, 4, 0⟩ = .ok lowered ∧
      lowered.shapes.Admits lowered.root
        (.object [("leaf", .number (.integer 1)),
          ("next", .object [("leaf", .number (.integer 2))])]) ∧
      ¬ lowered.shapes.Admits lowered.root
        (.object [("leaf", .number (.integer 1)), ("next", .number (.integer 2))]) := by
  have hd : DistinctNames chainSchema [] :=
    ⟨List.nodup_nil, by decide, fun _ he => absurd he List.not_mem_nil⟩
  have hs : LexicallyScoped chainSchema [] :=
    ⟨by decide, fun _ he => absurd he List.not_mem_nil⟩
  have hok : (lower chainSchema [] ⟨true, 4, 0⟩).isOk = true := by decide
  cases h : lower chainSchema [] ⟨true, 4, 0⟩ with
  | error error =>
    rw [h] at hok
    cases hok
  | ok lowered =>
    refine ⟨lowered, rfl, (validate_iff_admits hd hs h _).mp ?_, fun hv => ?_⟩
    · have hvalid : (validate chainSchema [] (.object [("leaf", .number (.integer 1)),
          ("next", .object [("leaf", .number (.integer 2))])])).isOk = true := by decide
      cases hv : validate chainSchema [] (.object [("leaf", .number (.integer 1)),
          ("next", .object [("leaf", .number (.integer 2))])]) with
      | error failure =>
        rw [hv] at hvalid
        cases hvalid
      | ok _ => rfl
    · have hwrong : (validate chainSchema [] (.object [("leaf", .number (.integer 1)),
          ("next", .number (.integer 2))])).isOk = false := by decide
      rw [(validate_iff_admits hd hs h _).mpr hv] at hwrong
      cases hwrong

end SchemaGrammar
