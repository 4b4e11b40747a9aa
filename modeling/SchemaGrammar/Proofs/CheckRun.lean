import SchemaGrammar.Proofs.SchemaMeaning
import SchemaGrammar.Proofs.StateRuns

/-!
# What checking decides

Checking goes through a schema with one flat scope, a registry of scopes, a list of the definitions
that it is inside of, and a bound on the references that it follows. For a lexically scoped document
none of this shows in the answer: a value is accepted exactly if the schema admits it.

A run is described by two statements, one that holds if the run succeeds and one that makes it
succeed. They differ only in the definitions to avoid. Success says that the value is admitted; for
the converse, the argument must not use the definitions that the run is inside of for the same
value, since the run refuses to enter them. That the bound on references is not reached is a count:
the run is inside of no definition twice at one place of the value.

## Main definitions

* `Checking.demanding`, `validateUnder`: checking with a demand on top.
* `Judges`, `Decides`: what a run says.

## Main results

* `validateUnder_iff`: a value is accepted under a demand exactly if the schema admits it.
-/

namespace SchemaGrammar

open Json (Value)
open Schema (Demand)

/-! ## Checking under a demand -/

namespace Checking

/-- Checks a value against a fragment, and then a demand. Which mismatch is reported if the demand
is not met says nothing. -/
def demanding (demand : Demand) (check : Schema → Schema.Parts Checker → Checker) (s : Schema)
    (parts : Schema.Parts Checker) : Checker := fun place value path scope => do
  check s parts place value path scope
  if demand s value then return () else fail path (.noBranch 0 value)

/-- Checks a value against a definition's body under a demand, through at most `jumps`
references. -/
def followUnder (demand : Demand) :
    (jumps : Nat) → String → Definition → Value → Path → Scope → CheckM Unit
  | 0, name, _, _, path, _ => fail path (.exhausted name)
  | jumps + 1, _, definition, value, path, scope =>
    definition.schema.fold (demanding demand (step (followUnder demand jumps))) definition.place
      value path scope

/-- Checks a value against a schema under a demand. -/
def documentUnder (demand : Demand) (s : Schema) (external : Assoc Schema) (value : Value) :
    CheckM Unit := do
  let scope := Scope.ofExternal external
  modify fun st => { st with registry := st.registry.declare scope }
  s.fold (demanding demand (step (followUnder demand (jumps s external value)))) [] value [] scope

end Checking

/-- Checks a value against a schema, where each value that is checked against a fragment has to
meet a demand as well. -/
def validateUnder (demand : Demand) (s : Schema) (external : Assoc Schema) (value : Value) :
    Except Failure Unit :=
  ((Checking.documentUnder demand s external value).run {}).1

/-- No demand at all. -/
def noDemand : Demand := fun _ _ => true

namespace Checking

theorem demanding_noDemand (check : Schema → Schema.Parts Checker → Checker) :
    demanding noDemand check = check := by
  funext s parts place value path scope
  have hbind : demanding noDemand check s parts place value path scope =
      (check s parts place value path scope >>= fun _ => pure ()) := rfl
  rw [hbind]
  exact bind_pure _

theorem followUnder_noDemand (jumps : Nat) : followUnder noDemand jumps = follow jumps := by
  induction jumps with
  | zero => rfl
  | succ jumps ih =>
    funext name definition value path scope
    rw [followUnder, follow, demanding_noDemand, ih]

end Checking

/-- Checking is checking under no demand. -/
theorem validateUnder_noDemand (s : Schema) (external : Assoc Schema) (value : Value) :
    validateUnder noDemand s external value = validate s external value := by
  unfold validateUnder validate Checking.documentUnder Checking.document
  rw [Checking.demanding_noDemand, Checking.followUnder_noDemand]

/-! ## Runs -/

section

variable {st st' : Checking}

theorem Checking.run_attempt_ok {m : CheckM Unit} (h : m.run st = (.ok (), st')) :
    (attempt m).run st = (.ok none, st') := by
  change attempt m st = _
  have hm : m st = (.ok (), st') := h
  rw [attempt, hm]

theorem Checking.run_attempt_error {m : CheckM Unit} {failure : Failure}
    (h : m.run st = (.error failure, st')) :
    (attempt m).run st = (.ok (some failure), st') := by
  change attempt m st = _
  have hm : m st = (.error failure, st') := h
  rw [attempt, hm]

end

section

variable (s : Schema) (external : Assoc Schema)

/-- What a run does to its state: it may record scopes, and is inside of the same definitions as
before. -/
structure Advances (st st' : Checking) : Prop where
  sound : st'.registry.Sound s external
  keeps : st.registry.Extends st'.registry
  active : st'.active = st.active

/-- `Judges st m P Q`: the run of `m` from `st` succeeds only if `P`, and does if `Q`. -/
def Judges (st : Checking) (m : CheckM Unit) (P Q : Prop) : Prop :=
  ∃ outcome st', m.run st = (outcome, st') ∧ Advances s external st st' ∧
    (outcome = .ok () → P) ∧ (Q → outcome = .ok ())

/-- The run of `m` from `st` succeeds exactly if `P`. -/
abbrev Decides (st : Checking) (m : CheckM Unit) (P : Prop) : Prop := Judges s external st m P P

end

section

variable {s : Schema} {external : Assoc Schema} {st st' st'' : Checking} {P Q P' Q' : Prop}
  {m k : CheckM Unit}

theorem Advances.refl (h : st.registry.Sound s external) : Advances s external st st :=
  ⟨h, .refl _, rfl⟩

theorem Advances.trans (h : Advances s external st st') (h' : Advances s external st' st'') :
    Advances s external st st'' :=
  ⟨h'.sound, h.keeps.trans h'.keeps, h'.active.trans h.active⟩

theorem Judges.weaken (h : Judges s external st m P Q) (hP : P → P') (hQ : Q' → Q) :
    Judges s external st m P' Q' := by
  obtain ⟨outcome, st', hrun, hadv, hp, hq⟩ := h
  exact ⟨outcome, st', hrun, hadv, fun ho => hP (hp ho), fun h => hq (hQ h)⟩

theorem Decides.congr (h : Decides s external st m P) (hP : P ↔ P') : Decides s external st m P' :=
  h.weaken hP.mp hP.mpr

theorem decides_pure (h : st.registry.Sound s external) (hP : P) :
    Decides s external st (pure ()) P :=
  ⟨.ok (), st, rfl, .refl h, fun _ => hP, fun _ => rfl⟩

theorem error_ne_ok (failure : Failure) : (.error failure : Except Failure Unit) ≠ .ok () := by
  simp

theorem judges_of_error {failure : Failure} (hrun : m.run st = (.error failure, st'))
    (hadv : Advances s external st st') (hQ : ¬ Q) : Judges s external st m P Q :=
  ⟨_, st', hrun, hadv, fun ho => absurd ho (error_ne_ok _), fun hq => absurd hq hQ⟩

theorem judges_fail (h : st.registry.Sound s external) (hQ : ¬ Q) (path : Path)
    (mismatch : Mismatch) : Judges s external st (Checking.fail path mismatch) P Q :=
  judges_of_error rfl (.refl h) hQ

theorem decides_ite {c : Bool} (h : st.registry.Sound s external) (path : Path)
    (mismatch : Mismatch) :
    Decides s external st (if c then pure () else Checking.fail path mismatch) (c = true) := by
  cases c with
  | true => exact decides_pure h rfl
  | false => exact judges_fail h Bool.false_ne_true path mismatch

theorem Judges.bind (h : Judges s external st m P Q)
    (hk : ∀ st', Advances s external st st' → P → Judges s external st' k P' Q') :
    Judges s external st (m >>= fun _ => k) (P ∧ P') (Q ∧ Q') := by
  obtain ⟨outcome, st', hrun, hadv, hp, hq⟩ := h
  cases outcome with
  | error failure =>
    exact judges_of_error (run_bind_of_error hrun) hadv fun h =>
      error_ne_ok failure (hq h.1)
  | ok u =>
    obtain ⟨outcome', st'', hrun', hadv', hp', hq'⟩ := hk st' hadv (hp rfl)
    exact ⟨outcome', st'', (run_bind_of_ok hrun).trans hrun', hadv.trans hadv',
      fun ho => ⟨hp rfl, hp' ho⟩, fun h => hq' h.2⟩

/-- Several checks, one after the other. -/
theorem decides_forM {ι : Type} {l : List ι} {f : ι → CheckM Unit} {P : ι → Prop}
    (hst : st.registry.Sound s external)
    (h : ∀ x ∈ l, ∀ st', Advances s external st st' → Decides s external st' (f x) (P x)) :
    Decides s external st (l.forM f) (∀ x ∈ l, P x) := by
  induction l generalizing st with
  | nil => exact decides_pure hst (fun x hx => absurd hx List.not_mem_nil)
  | cons x l ih =>
    have hcons : (x :: l).forM f = (f x >>= fun _ => l.forM f) := rfl
    rw [hcons]
    refine Decides.congr (Judges.bind (h x List.mem_cons_self st (.refl hst)) ?_)
      List.forall_mem_cons.symm
    intro st' hadv _
    exact ih hadv.sound fun y hy st'' hadv' =>
      h y (List.mem_cons_of_mem _ hy) st'' (hadv.trans hadv')

/-- Several checks, tried one after the other. -/
theorem run_firstSuccess {ι : Type} {l : List ι} {f : ι → CheckM Unit} {P Q : ι → Prop}
    (hst : st.registry.Sound s external)
    (h : ∀ x ∈ l, ∀ st', Advances s external st st' → Judges s external st' (f x) (P x) (Q x)) :
    ∃ found st', (Checking.firstSuccess (l.map f)).run st = (.ok found, st') ∧
      Advances s external st st' ∧ (found = true → ∃ x ∈ l, P x) ∧
      ((∃ x ∈ l, Q x) → found = true) := by
  induction l generalizing st with
  | nil => exact ⟨false, st, rfl, .refl hst, fun h => Bool.noConfusion h, by simp⟩
  | cons x l ih =>
    obtain ⟨outcome, st', hrun, hadv, hp, hq⟩ := h x List.mem_cons_self st (.refl hst)
    rw [List.map_cons, Checking.firstSuccess]
    cases outcome with
    | ok u =>
      rw [run_bind_of_ok (Checking.run_attempt_ok hrun)]
      exact ⟨true, st', rfl, hadv, fun _ => ⟨x, List.mem_cons_self, hp rfl⟩, fun _ => rfl⟩
    | error failure =>
      rw [run_bind_of_ok (Checking.run_attempt_error hrun)]
      obtain ⟨found, st'', hrest, hadv', hp', hq'⟩ := ih hadv.sound fun y hy st'' hadv' =>
        h y (List.mem_cons_of_mem _ hy) st'' (hadv.trans hadv')
      refine ⟨found, st'', hrest, hadv.trans hadv', fun ho => ?_, ?_⟩
      · obtain ⟨y, hy, hpy⟩ := hp' ho
        exact ⟨y, List.mem_cons_of_mem _ hy, hpy⟩
      · rintro ⟨y, hy, hqy⟩
        rcases List.mem_cons.mp hy with rfl | hy
        · exact absurd (hq hqy) (error_ne_ok failure)
        · exact hq' ⟨y, hy, hqy⟩

/-- The types that a value has, tried one after the other. -/
theorem decides_someType {check : TypeName → CheckM Unit} {value : Value} {none? : Failure}
    {types : List TypeName} {P : TypeName → Prop} (hst : st.registry.Sound s external)
    (hadmits : ∀ type, P type → type.admits value = true)
    (h : ∀ type st', Advances s external st st' → Decides s external st' (check type) (P type))
    (first : Option Failure) :
    Decides s external st (Checking.someType check value none? types first)
      (∃ type ∈ types, P type) := by
  induction types generalizing st first with
  | nil =>
    exact judges_of_error rfl (.refl hst) (by simp)
  | cons type types ih =>
    rw [Checking.someType]
    by_cases ha : type.admits value = true
    · rw [if_pos ha]
      obtain ⟨outcome, st', hrun, hadv, hp, hq⟩ := h type st (.refl hst)
      cases outcome with
      | ok u =>
        exact ⟨.ok (), st', run_bind_of_ok (Checking.run_attempt_ok hrun), hadv,
          fun _ => ⟨type, List.mem_cons_self, hp rfl⟩, fun _ => rfl⟩
      | error failure =>
        obtain ⟨outcome', st'', hrest, hadv', hp', hq'⟩ := ih hadv.sound
          (fun type' st'' hadv' => h type' st'' (hadv.trans hadv')) (first.or (some failure))
        refine ⟨outcome', st'',
          (run_bind_of_ok (Checking.run_attempt_error hrun)).trans hrest,
          hadv.trans hadv', fun ho => ?_, ?_⟩
        · obtain ⟨type', ht, hpt⟩ := hp' ho
          exact ⟨type', List.mem_cons_of_mem _ ht, hpt⟩
        · rintro ⟨type', ht, hpt⟩
          rcases List.mem_cons.mp ht with rfl | ht
          · exact absurd (hq hpt) (error_ne_ok failure)
          · exact hq' ⟨type', ht, hpt⟩
    · rw [if_neg ha]
      refine (ih hst h first).congr ?_
      simp only [List.mem_cons, exists_eq_or_imp]
      exact (or_iff_right fun hp => ha (hadmits type hp)).symm

end

/-! ## Values of one type -/

namespace Json.Value

theorem depth_le_itemsDepth {items : List Value} {v : Value} (h : v ∈ items) :
    v.depth ≤ itemsDepth items := by
  induction items with
  | nil => exact absurd h List.not_mem_nil
  | cons item items ih =>
    rw [itemsDepth]
    rcases List.mem_cons.mp h with rfl | h
    · exact Nat.le_max_left _ _
    · exact (ih h).trans (Nat.le_max_right _ _)

theorem depth_le_membersDepth {members : List (String × Value)} {m : String × Value}
    (h : m ∈ members) : m.2.depth ≤ membersDepth members := by
  induction members with
  | nil => exact absurd h List.not_mem_nil
  | cons member members ih =>
    obtain ⟨key, value⟩ := member
    rw [membersDepth]
    rcases List.mem_cons.mp h with rfl | h
    · exact Nat.le_max_left _ _
    · exact (ih h).trans (Nat.le_max_right _ _)

theorem depth_lt_of_mem_items {items : List Value} {v : Value} (h : v ∈ items) :
    v.depth < (array items).depth := by
  rw [depth]
  exact Nat.lt_succ_of_le (depth_le_itemsDepth h)

theorem depth_lt_of_mem_members {members : List (String × Value)} {m : String × Value}
    (h : m ∈ members) : m.2.depth < (object members).depth := by
  rw [depth]
  exact Nat.lt_succ_of_le (depth_le_membersDepth h)

end Json.Value

namespace Checking

section

variable {s t : Schema} {external : Assoc Schema} {st : Checking} {place : Place} {path : Path}
  {scope : Scope} {check : Schema → Checker} {sub : Schema → Value → Prop}

theorem decides_string (hst : st.registry.Sound s external) (t : Schema) (text : String)
    (path : Path) :
    Decides s external st (string t text path) (t.admitsText text = true) := by
  unfold string Schema.admitsText
  cases t.textFormat? with
  | some format => exact decides_ite hst path _
  | none => exact decides_ite hst path _

/-- The check of an item that is not a leading one. -/
def furtherItem (items : Option Checker) (place : Place) (path : Path) (scope : Scope)
    (index : Nat) (value : Value) : CheckM Unit :=
  items.elim (pure ()) fun check => check (.items :: place) value (.index index :: path) scope

theorem eachItem_nil_cons (items : Option Checker) (index : Nat) (value : Value)
    (values : List Value) :
    eachItem items place path scope [] index (value :: values) =
      (furtherItem items place path scope index value >>= fun _ =>
        eachItem items place path scope [] (index + 1) values) := by
  cases items <;> rfl

theorem forall_getElem?_cons {α : Type} {x : α} {l : List α} {R : Nat → α → Prop} :
    (∀ i a, (x :: l)[i]? = some a → R i a) ↔ R 0 x ∧ ∀ i a, l[i]? = some a → R (i + 1) a := by
  refine ⟨fun h => ⟨h 0 x rfl, fun i a hi => h (i + 1) a hi⟩, fun h i a hi => ?_⟩
  cases i with
  | zero =>
    cases hi
    exact h.1
  | succ i => exact h.2 i a hi

theorem decides_eachItem {leading : List Schema} {items : Option Schema} {values : List Value}
    {index : Nat} (hst : st.registry.Sound s external)
    (hleading : ∀ i c v st', leading[i]? = some c → v ∈ values → Advances s external st st' →
      Decides s external st' (check c (.leading (index + i) :: place) v
        (.index (index + i) :: path) scope) (sub c v))
    (hitems : ∀ i c v st', items = some c → v ∈ values → Advances s external st st' →
      Decides s external st' (check c (.items :: place) v (.index i :: path) scope) (sub c v)) :
    Decides s external st
      (eachItem (items.map check) place path scope (leading.map check) index values)
      (∀ (i : Nat) v, values[i]? = some v → ∀ c, leading[i]?.or items = some c → sub c v) := by
  induction values generalizing st leading index with
  | nil =>
    have hnil : eachItem (items.map check) place path scope (leading.map check) index [] =
        pure () := by
      cases leading <;> rfl
    rw [hnil]
    exact decides_pure hst (by simp)
  | cons value values ih =>
    have hrest : ∀ {st'}, Advances s external st st' → ∀ i c v st'', items = some c →
        v ∈ values → Advances s external st' st'' →
        Decides s external st'' (check c (.items :: place) v (.index i :: path) scope)
          (sub c v) :=
      fun hadv i c v st'' hc hv hadv' =>
        hitems i c v st'' hc (List.mem_cons_of_mem _ hv) (hadv.trans hadv')
    cases leading with
    | nil =>
      have hhead : Decides s external st
          (furtherItem (items.map check) place path scope index value)
          (∀ c, items = some c → sub c value) := by
        cases hc : items with
        | none => exact decides_pure hst (by simp)
        | some c =>
          refine Decides.congr (hitems index c value st hc List.mem_cons_self (.refl hst)) ?_
          simp
      have htail : ∀ st', Advances s external st st' → Decides s external st'
          (eachItem (items.map check) place path scope (([] : List Schema).map check) (index + 1)
            values)
          (∀ (i : Nat) v, values[i]? = some v → ∀ c,
            ([] : List Schema)[i]?.or items = some c → sub c v) := by
        intro st' hadv
        exact ih hadv.sound (fun i c v st'' hc => absurd hc (by simp)) (hrest hadv)
      rw [List.map_nil, eachItem_nil_cons]
      refine Decides.congr (hhead.bind fun st' hadv _ => htail st' hadv) ?_
      rw [forall_getElem?_cons]
      simp
    | cons first leading =>
      have hhead := hleading 0 first value st rfl List.mem_cons_self (.refl hst)
      have hcons : eachItem (items.map check) place path scope ((first :: leading).map check)
          index (value :: values) =
          (check first (.leading index :: place) value (.index index :: path) scope >>= fun _ =>
            eachItem (items.map check) place path scope (leading.map check) (index + 1) values) :=
        rfl
      rw [hcons]
      refine Decides.congr (hhead.bind fun st' hadv _ =>
        ih hadv.sound (fun i c v st'' hc hv hadv' => ?_) (hrest hadv)) ?_
      · have h := hleading (i + 1) c v st'' hc (List.mem_cons_of_mem _ hv) (hadv.trans hadv')
        rw [← Nat.add_assoc, Nat.add_right_comm] at h
        exact h
      · rw [forall_getElem?_cons]
        simp

/-- What is known of the checks of the parts of a value. -/
def PartsDecide (s : Schema) (external : Assoc Schema) (st : Checking) (t : Schema)
    (check : Schema → Checker) (sub : Schema → Value → Prop) (place : Place) (value : Value)
    (path : Path) (scope : Scope) : Prop :=
  ∀ e ∈ t.children, ∀ v step st', v.depth < value.depth → Advances s external st st' →
    Decides s external st' (check e.2 (e.1 :: place) v (step :: path) scope) (sub e.2 v)

theorem decides_array {values : List Value} (hst : st.registry.Sound s external)
    (h : PartsDecide s external st t check sub place (.array values) path scope) :
    Decides s external st (array t (t.parts.map check) place values path scope)
      (t.AdmitsAs sub .array (.array values)) := by
  have hcount : array t (t.parts.map check) place values path scope =
      (if t.admitsCount values.length = true then
        eachItem (t.items.map check) place path scope ((t.prefixItems.getD []).map check) 0 values
      else fail path (.itemCount (max (t.minItems.getD 0) (t.prefixItems.getD []).length)
        (t.maxItems.map (max · (max (t.minItems.getD 0) (t.prefixItems.getD []).length)))
        values.length)) := by
    simp only [array, Schema.Parts.map, Schema.parts, List.length_map]
    rfl
  have hshape : t.AdmitsAs sub .array (.array values) ↔ t.admitsCount values.length = true ∧
      ∀ i v, values[i]? = some v → ∀ c, t.itemAt? i = some c → sub c v := by
    rw [Schema.AdmitsAs]
    exact and_congr_right fun _ => ⟨fun h i v hv c hc => h i v c hv hc,
      fun h i v c hv hc => h i v hv c hc⟩
  rw [hcount, hshape]
  by_cases hc : t.admitsCount values.length = true
  · rw [if_pos hc]
    refine Decides.congr (decides_eachItem hst (fun i c v st' hi hv hadv => ?_)
      fun i c v st' hi hv hadv => ?_) (and_iff_right hc).symm
    · rw [Nat.zero_add]
      exact h (.leading i, c)
        (Schema.leading_mem_children (List.mk_mem_zipIdx_iff_getElem?.mpr hi)) v _ st'
        (Json.Value.depth_lt_of_mem_items hv) hadv
    · exact h (.items, c) (Schema.items_mem_children hi) v _ st'
        (Json.Value.depth_lt_of_mem_items hv) hadv
  · rw [if_neg hc]
    exact judges_fail hst (fun h => hc h.1) path _

theorem decides_additional {members : List (String × Value)} (hst : st.registry.Sound s external)
    (h : PartsDecide s external st t check sub place (.object members) path scope) :
    Decides s external st (additional (t.parts.map check) place
        (members.filter fun m => !t.declared.contains m.1) path scope)
      (∀ m ∈ members, t.declared.contains m.1 = false →
        t.additional.any Additional.isOpen = true ∧
          ∀ c, t.additional = some (.schema c) → sub c m.2) := by
  set extra := members.filter fun m => !t.declared.contains m.1 with hextra
  have hmem : ∀ {m}, m ∈ extra ↔ m ∈ members ∧ t.declared.contains m.1 = false := by
    intro m
    rw [hextra, List.mem_filter, Bool.not_eq_true']
  refine Decides.congr (P := ∀ m ∈ extra, t.additional.any Additional.isOpen = true ∧
    ∀ c, t.additional = some (.schema c) → sub c m.2) ?_ ?_
  · unfold additional
    by_cases hempty : extra.isEmpty = true
    · rw [if_pos hempty]
      refine decides_pure hst ?_
      rw [List.isEmpty_iff.mp hempty]
      simp
    · rw [if_neg hempty, Schema.additional_map_parts]
      obtain ⟨m, hm⟩ := List.exists_mem_of_ne_nil extra fun h => hempty (List.isEmpty_iff.mpr h)
      rcases hadd : t.additional with _ | (yes | c)
      · exact judges_fail hst (fun h => by simpa using (h m hm).1) path _
      · cases yes with
        | false =>
          exact judges_fail hst (fun h => by simpa [Additional.isOpen] using (h m hm).1) path _
        | true => exact decides_pure hst (by simp [Additional.isOpen])
      · refine Decides.congr (decides_forM hst fun m hm st' hadv => h (.additional, c)
          (Schema.additional_mem_children hadd) m.2 (.key m.1) st'
          (Json.Value.depth_lt_of_mem_members (hmem.mp hm).1) hadv) ?_
        simp [Additional.isOpen]
  · simp only [hmem, and_imp]

/-- The check that no required member is missing. -/
def requireAll (t : Schema) (members : List (String × Value)) (path : Path) : CheckM Unit :=
  let missing := t.declared.keys.filter fun key =>
    t.isRequired key && !Assoc.contains members key
  if missing.isEmpty then pure () else fail path (.missingKeys missing)

theorem decides_requireAll (hst : st.registry.Sound s external) (t : Schema)
    (members : List (String × Value)) (path : Path) :
    Decides s external st (requireAll t members path)
      (∀ key ∈ t.declared.keys, t.isRequired key = true →
        Assoc.contains members key = true) := by
  refine Decides.congr (decides_ite hst path _) ?_
  rw [List.isEmpty_iff, List.filter_eq_nil_iff]
  simp

/-- The check of a declared member, if it is there. -/
def declaredMember (check : Schema → Checker) (place : Place) (members : List (String × Value))
    (path : Path) (scope : Scope) (e : String × Schema) : CheckM Unit :=
  (Assoc.get? e.1 members).elim (pure ()) fun value =>
    check e.2 (.property e.1 :: place) value (.key e.1 :: path) scope

theorem forM_map {α β : Type} (g : α → β) (f : β → CheckM Unit) (l : List α) :
    (l.map g).forM f = l.forM fun x => f (g x) := by
  induction l with
  | nil => rfl
  | cons x l ih =>
    have hcons : ((x :: l).map g).forM f = (f (g x) >>= fun _ => (l.map g).forM f) := rfl
    rw [hcons, ih]
    rfl

theorem object_eq (t : Schema) (check : Schema → Checker) (place : Place)
    (members : List (String × Value)) (path : Path) (scope : Scope) :
    object t (t.parts.map check) place members path scope =
      (additional (t.parts.map check) place (members.filter fun m => !t.declared.contains m.1) path
          scope >>= fun _ =>
        requireAll t members path >>= fun _ =>
          t.declared.forM (declaredMember check place members path scope)) := by
  unfold object requireAll
  rw [Schema.properties_map_parts, forM_map]
  refine bind_congr fun _ => ?_
  generalize t.declared.keys.filter (fun key => t.isRequired key && !Assoc.contains members key) =
    missing
  cases missing with
  | nil =>
    refine congrArg (List.forM t.declared) (funext fun e => ?_)
    dsimp only [declaredMember]
    cases Assoc.get? e.1 members <;> rfl
  | cons key missing =>
    refine bind_congr fun _ => congrArg (List.forM t.declared) (funext fun e => ?_)
    dsimp only [declaredMember]
    cases Assoc.get? e.1 members <;> rfl

theorem decides_object {members : List (String × Value)} (hst : st.registry.Sound s external)
    (h : PartsDecide s external st t check sub place (.object members) path scope) :
    Decides s external st (object t (t.parts.map check) place members path scope)
      (t.AdmitsAs sub .object (.object members)) := by
  rw [object_eq]
  refine (decides_additional hst h).bind fun st' hadv _ =>
    (decides_requireAll hadv.sound t members path).bind fun st'' hadv' _ =>
      decides_forM hadv'.sound fun e he st₃ hadv'' => ?_
  unfold declaredMember
  cases hget : Assoc.get? e.1 members with
  | none => exact decides_pure hadv''.sound (by simp)
  | some v =>
    refine Decides.congr (h (.property e.1, e.2) (Schema.property_mem_children he) v (.key e.1) st₃
      (Json.Value.depth_lt_of_mem_members (Assoc.mem_of_get? hget))
      (hadv.trans (hadv'.trans hadv''))) ?_
    simp

theorem decides_typed {value : Value} {type : TypeName} (hst : st.registry.Sound s external)
    (h : PartsDecide s external st t check sub place value path scope) :
    Decides s external st (typed t (t.parts.map check) type place value path scope)
      (t.AdmitsAs sub type value) := by
  unfold typed
  cases ha : type.admits value with
  | false =>
    rw [Bool.not_false, if_pos rfl]
    exact judges_fail hst (fun hs => by rw [hs.admits] at ha; cases ha) path _
  | true =>
    rw [Bool.not_true, if_neg Bool.false_ne_true]
    cases type with
    | object =>
      cases value with
      | object members => exact decides_object hst h
      | _ => cases ha
    | array =>
      cases value with
      | array values => exact decides_array hst h
      | _ => cases ha
    | string =>
      cases value with
      | string text => exact decides_string hst t text path
      | _ => cases ha
    | _ => exact decides_pure hst ha

theorem decides_byTypes {value : Value} (hst : st.registry.Sound s external)
    (h : PartsDecide s external st t check sub place value path scope) (types : List TypeName) :
    Decides s external st (byTypes t (t.parts.map check) types place value path scope)
      (∃ type ∈ types, t.AdmitsAs sub type value) := by
  have htyped : ∀ type st', Advances s external st st' →
      Decides s external st' (typed t (t.parts.map check) type place value path scope)
        (t.AdmitsAs sub type value) := fun type st' hadv =>
    decides_typed hadv.sound fun e he v step st'' hdepth hadv' =>
      h e he v step st'' hdepth (hadv.trans hadv')
  unfold byTypes
  split
  · refine Decides.congr (htyped _ st (.refl hst)) ?_
    simp
  · exact decides_someType hst (fun type ha => ha.admits) htyped none

end

/-! ## Fragments -/

section

variable {s t : Schema} {external : Assoc Schema} {st : Checking} {place : Place} {path : Path}
  {scope : Scope} {value : Value} {check : Schema → Checker}
  {follow : String → Definition → Value → Path → Scope → CheckM Unit}

/-- The check of a value by what decides about it. -/
def byCriterion (follow : String → Definition → Value → Path → Scope → CheckM Unit)
    (check : Schema → Checker) (t : Schema) : Criterion → Checker
  | .reference text => fun _ value path scope => reference follow text value path scope
  | .union placed branches => union (branches.map check) placed
  | .constant expected => fun _ value path _ =>
    if value.same expected then pure () else fail path (.notConstant expected value)
  | .enumeration members => fun _ value path _ =>
    if members.any (·.same value) then pure () else fail path (.notMember members value)
  | .types types => byTypes t (t.parts.map check) types
  | .anything => fun _ _ _ _ => pure ()

theorem step_eq (follow : String → Definition → Value → Path → Scope → CheckM Unit) (t : Schema)
    (check : Schema → Checker) (place : Place) (value : Value) (path : Path) (scope : Scope) :
    step follow t (t.parts.map check) place value path scope =
      (enter t place scope >>= fun inner =>
        byCriterion follow check t t.criterion place value path inner) := by
  obtain ⟨types, properties, required, additional, items, prefixItems, minItems, maxItems,
    minLength, maxLength, format, enumeration, constant, oneOf, anyOf, definitions, reference,
    description⟩ := t
  refine bind_congr fun inner => ?_
  cases reference with
  | some text => rfl
  | none =>
    cases oneOf with
    | some branches => rfl
    | none =>
      cases anyOf with
      | some branches => rfl
      | none =>
        cases constant with
        | some expected => rfl
        | none =>
          cases enumeration with
          | some members => rfl
          | none => cases types <;> rfl

/-- What comes after a fragment is entered runs in its scope. -/
theorem run_enter_bind {α : Type} (t : Schema) (place : Place) (scope : Scope)
    (k : Scope → CheckM α) (st : Checking) :
    (enter t place scope >>= k).run st =
      (k (scope.entered place t)).run
        { st with registry := st.registry.entered place t scope } := by
  unfold enter Scope.entered ScopeRegistry.entered
  split_ifs <;> rfl

theorem judges_union {branches : List Schema} {placed : Nat → PlaceStep} {P Q : Schema → Prop}
    (hst : st.registry.Sound s external)
    (h : ∀ e ∈ branches.zipIdx, ∀ st', Advances s external st st' →
      Judges s external st' (check e.1 (placed e.2 :: place) value path scope) (P e.1) (Q e.1)) :
    Judges s external st (union (branches.map check) placed place value path scope)
      (∃ b ∈ branches, P b) (∃ b ∈ branches, Q b) := by
  have hmem : ∀ {R : Schema → Prop}, (∃ e ∈ branches.zipIdx, R e.1) ↔ ∃ b ∈ branches, R b := by
    intro R
    refine ⟨fun ⟨e, he, hr⟩ => ⟨e.1, List.fst_mem_of_mem_zipIdx he, hr⟩, fun ⟨b, hb, hr⟩ => ?_⟩
    obtain ⟨i, hi⟩ := Schema.exists_mem_zipIdx hb
    exact ⟨(b, i), hi, hr⟩
  obtain ⟨found, st', hrun, hadv, hp, hq⟩ := run_firstSuccess hst h
  have hchecks : (branches.map check).zipIdx.map (fun e => e.1 (placed e.2 :: place) value path
      scope) = branches.zipIdx.map fun e => check e.1 (placed e.2 :: place) value path scope := by
    rw [List.zipIdx_map, List.map_map]
    rfl
  unfold union
  rw [← hchecks] at hrun
  cases found with
  | true =>
    exact ⟨.ok (), st', run_bind_of_ok hrun, hadv, fun _ => hmem.mp (hp rfl), fun _ => rfl⟩
  | false =>
    exact judges_of_error (run_bind_of_ok hrun) hadv fun h => Bool.noConfusion (hq (hmem.mpr h))

/-- A check inside of a definition. -/
def inside (key : DefinitionKey) (path : Path) (m : CheckM Unit) : CheckM Unit := do
  modify fun st => { st with active := (key, path) :: st.active }
  let outcome ← attempt m
  modify fun st => { st with active := st.active.erase (key, path) }
  match outcome with
  | none => return ()
  | some failure => throw failure

theorem run_inside {key : DefinitionKey} {m : CheckM Unit} {outcome : Except Failure Unit}
    {st' : Checking}
    (h : m.run { st with active := (key, path) :: st.active } = (outcome, st')) :
    (inside key path m).run st =
      (outcome, { st' with active := st'.active.erase (key, path) }) := by
  cases outcome with
  | ok u => exact run_bind_of_ok (run_attempt_ok h)
  | error failure => exact run_bind_of_ok (run_attempt_error h)

theorem judges_inside {key : DefinitionKey} {m : CheckM Unit} {P Q : Prop}
    (h : Judges s external { st with active := (key, path) :: st.active } m P Q) :
    Judges s external st (inside key path m) P Q := by
  obtain ⟨outcome, st', hrun, ⟨hsound, hkeeps, hactive⟩, hp, hq⟩ := h
  refine ⟨outcome, _, run_inside hrun, ⟨hsound, hkeeps, ?_⟩, hp, hq⟩
  rw [hactive]
  exact List.erase_cons_head _ _

theorem reference_eq {text name : String} {definition : Definition}
    (hname : definitionName? text = some name) (hget : scope.get? name = some definition) :
    (reference follow text value path scope).run st =
      (if st.active.contains ((name, definition.place), path) = true then
        fail path (.selfReference name)
      else inside (name, definition.place) path (follow name definition value path
        (st.registry.visible scope (name, definition.place)))).run st := by
  rw [reference_eq_referTo, Scope.resolve?_of_get? hname hget]
  rfl

theorem judges_enter {P Q : Prop} {k : Scope → CheckM Unit} {env : Env}
    (hd : DistinctNames s external) (hst : st.registry.Sound s external)
    (hsees : Scope.Sees s external st.registry scope env) (hf : Fragment s external place env t)
    (h : ∀ st', Advances s external st st' →
      Scope.Sees s external st'.registry (scope.entered place t) (t.inner env) →
      Judges s external st' (k (scope.entered place t)) P Q) :
    Judges s external st (enter t place scope >>= k) P Q := by
  obtain ⟨hsound, hinner, hkeeps⟩ := Scope.sound_entered hd hst hsees hf
  have hadv : Advances s external st
      { st with registry := st.registry.entered place t scope } := ⟨hsound, hkeeps, rfl⟩
  obtain ⟨outcome, st', hrun, hadv', hp, hq⟩ := h _ hadv hinner
  exact ⟨outcome, st', (run_enter_bind t place scope k st).trans hrun, hadv.trans hadv', hp, hq⟩

end

end Checking

/-! ## The definitions that a run is inside of -/

/-- The definitions that a run is inside of, at one place of the value. -/
def avoidedAt (s : Schema) (external : Assoc Schema) (active : List (DefinitionKey × Path))
    (path : Path) : Set Closure :=
  {c | ∃ key, (key, path) ∈ active ∧ Fragment s external key.2 c.env c.schema}

/-- A run that is inside of `active` at `path`, with `jumps` references left: it is inside of no
definition twice at one place, and all places are on the way to `path`. The bound is that on the
depth of the value. -/
structure ActiveAt (s : Schema) (external : Assoc Schema) (bound jumps : Nat)
    (active : List (DefinitionKey × Path)) (path : Path) : Prop where
  nodup : active.Nodup
  keys : ∀ a ∈ active, a.1 ∈ documentKeys s external
  paths : ∀ a ∈ active, a.2 <:+ path
  enough : s.definitionTotal external * (bound + 1) ≤ jumps + active.length

section

variable {s : Schema} {external : Assoc Schema} {bound jumps : Nat}
  {active : List (DefinitionKey × Path)} {path : Path} {key : DefinitionKey}

/-- A run starts inside of nothing. -/
theorem activeAt_start (value : Value) :
    ActiveAt s external value.depth (Checking.jumps s external value) [] [] :=
  ⟨List.nodup_nil, by simp, by simp, Nat.le_refl _⟩

theorem avoidedAt_nil : avoidedAt s external [] path = ∅ := by
  refine Set.eq_empty_of_forall_notMem ?_
  rintro c ⟨key, hmem, -⟩
  exact absurd hmem List.not_mem_nil

theorem ActiveAt.deeper (h : ActiveAt s external bound jumps active path) (step : PathStep) :
    ActiveAt s external bound jumps active (step :: path) :=
  ⟨h.nodup, h.keys, fun a ha => (h.paths a ha).trans (List.suffix_cons step path), h.enough⟩

theorem ActiveAt.avoidedAt_deeper (h : ActiveAt s external bound jumps active path)
    (step : PathStep) : avoidedAt s external active (step :: path) = ∅ := by
  refine Set.eq_empty_of_forall_notMem fun c hc => ?_
  obtain ⟨key, hmem, -⟩ := hc
  have hle := (h.paths _ hmem).length_le
  simp at hle

theorem ActiveAt.inside (h : ActiveAt s external bound (jumps + 1) active path)
    (hkey : key ∈ documentKeys s external) (hnew : (key, path) ∉ active) :
    ActiveAt s external bound jumps ((key, path) :: active) path := by
  refine ⟨List.nodup_cons.mpr ⟨hnew, h.nodup⟩, List.forall_mem_cons.mpr ⟨hkey, h.keys⟩,
    List.forall_mem_cons.mpr ⟨List.suffix_refl path, h.paths⟩, ?_⟩
  have henough := h.enough
  rw [List.length_cons]
  omega

/-- The bound on references is not reached before a definition is entered. -/
theorem ActiveAt.jumps_pos (h : ActiveAt s external bound jumps active path)
    (hkey : key ∈ documentKeys s external) (hnew : (key, path) ∉ active)
    (hpath : path.length ≤ bound) : 0 < jumps := by
  have hnodup : ((key, path) :: active).Nodup := List.nodup_cons.mpr ⟨hnew, h.nodup⟩
  have hsubset : (key, path) :: active ⊆ documentKeys s external ×ˢ path.tails := by
    intro a ha
    rcases List.mem_cons.mp ha with rfl | ha
    · exact List.pair_mem_product.mpr ⟨hkey, (List.mem_tails _ _).mpr (List.suffix_refl path)⟩
    · exact List.pair_mem_product.mpr ⟨h.keys a ha, (List.mem_tails _ _).mpr (h.paths a ha)⟩
  have hle := (hnodup.subperm hsubset).length_le
  rw [List.length_cons, List.length_product, List.length_tails, length_documentKeys] at hle
  have hmul := Nat.mul_le_mul_left (s.definitionTotal external) (Nat.succ_le_succ hpath)
  have henough := h.enough
  simp only [Nat.succ_eq_add_one] at hmul
  omega

theorem avoidedAt_inside (hd : DistinctNames s external) {c : Closure}
    (hf : Fragment s external key.2 c.env c.schema) :
    avoidedAt s external ((key, path) :: active) path =
      insert c (avoidedAt s external active path) := by
  ext c'
  constructor
  · rintro ⟨key', hmem, hf'⟩
    rcases List.mem_cons.mp hmem with heq | hmem
    · cases heq
      obtain ⟨henv, hschema⟩ := hf'.unique hd hf
      obtain ⟨schema, env⟩ := c'
      obtain ⟨schema', env'⟩ := c
      cases henv
      cases hschema
      exact Set.mem_insert _ _
    · exact Set.mem_insert_of_mem _ ⟨key', hmem, hf'⟩
  · rintro (rfl | ⟨key', hmem, hf'⟩)
    · exact ⟨key, List.mem_cons_self, hf⟩
    · exact ⟨key', List.mem_cons_of_mem _ hmem, hf'⟩

end

/-! ## Whole runs -/

/-- Every check of a fragment of the document that follows at most `jumps` references, of a value
not deeper than the bound, succeeds only if the fragment admits the value, and does if it does so
without the definitions that the run is inside of. -/
def JudgesFragments (s : Schema) (external : Assoc Schema) (demand : Demand) (bound jumps : Nat) :
    Prop :=
  ∀ {t : Schema} {place : Place} {env : Env} {value : Value} {path : Path} {scope : Scope}
    {st : Checking}, Fragment s external place env t →
    Scope.Sees s external st.registry scope env → st.registry.Sound s external →
    ActiveAt s external bound jumps st.active path → path.length + value.depth ≤ bound →
    Judges s external st
      (t.fold (Checking.demanding demand (Checking.step (Checking.followUnder demand jumps))) place
        value path scope)
      (Schema.Admits demand ∅ env t value)
      (Schema.Admits demand (avoidedAt s external st.active path) env t value)

section

variable {s t : Schema} {external : Assoc Schema} {demand : Demand} {bound jumps : Nat}
  {place : Place} {env : Env} {value : Value} {path : Path} {scope : Scope} {st : Checking}

theorem judges_reference (hd : DistinctNames s external) (hs : LexicallyScoped s external)
    (hrec : ∀ j, jumps = j + 1 → JudgesFragments s external demand bound j)
    (hf : Fragment s external place env t) {text : String} (htext : t.reference = some text)
    (hsees : Scope.Sees s external st.registry scope (t.inner env))
    (hst : st.registry.Sound s external) (hactive : ActiveAt s external bound jumps st.active path)
    (hdepth : path.length + value.depth ≤ bound) :
    Judges s external st
      (Checking.reference (Checking.followUnder demand jumps) text value path scope)
      (t.Meets (Schema.Admits demand) ∅ (t.inner env) value (.reference text))
      (t.Meets (Schema.Admits demand) (avoidedAt s external st.active path) (t.inner env) value
        (.reference text)) := by
  obtain ⟨name, c, hname, hfind⟩ := hs.exists_closure hf htext
  obtain ⟨home, hget, hhome⟩ := hsees.covers name c hfind
  -- The name means one definition only.
  have hmeets : ∀ {avoided}, t.Meets (Schema.Admits demand) avoided (t.inner env) value
      (.reference text) ↔ c ∉ avoided ∧ Schema.Admits demand avoided c.env c.schema value := by
    intro avoided
    constructor
    · rintro ⟨name', c', hname', hfind', hfree, hadmits⟩
      cases hname.symm.trans hname'
      cases hfind.symm.trans hfind'
      exact ⟨hfree, hadmits⟩
    · rintro ⟨hfree, hadmits⟩
      exact ⟨name, c, hname, hfind, hfree, hadmits⟩
  rw [hmeets, hmeets, Judges, Checking.reference_eq hname hget]
  split_ifs with hcontains
  · have hmem : ((name, home), path) ∈ st.active := by simpa using hcontains
    exact judges_fail hst (fun h => h.1 ⟨_, hmem, hhome⟩) path _
  · have hnew : ((name, home), path) ∉ st.active := by simpa using hcontains
    have hkey : (name, home) ∈ documentKeys s external :=
      hhome.mem_documentKeys (hsees.genuine.named _ (Assoc.mem_of_get? hget))
    obtain ⟨j, rfl⟩ := Nat.exists_eq_succ_of_ne_zero
      (hactive.jumps_pos hkey hnew (by omega)).ne'
    refine (Checking.judges_inside (hrec j rfl hhome ?_ hst (hactive.inside hkey hnew)
      hdepth)).weaken (fun h => ⟨Set.notMem_empty c, h⟩) fun h => ?_
    · exact Scope.sees_visible hd hst hsees.genuine hget hhome
    · rw [avoidedAt_inside hd hhome]
      exact h.2.insert

/-- The check of a fragment by what decides, given the checks of the fragments it is made of. -/
theorem judges_byCriterion (hd : DistinctNames s external) (hs : LexicallyScoped s external)
    (hrec : ∀ j, jumps = j + 1 → JudgesFragments s external demand bound j)
    (hf : Fragment s external place env t) {check : Schema → Checker}
    (hsub : ∀ e ∈ t.children, ∀ {v path' st'}, Advances s external st st' →
      ActiveAt s external bound jumps st.active path' → path'.length + v.depth ≤ bound →
      Judges s external st' (check e.2 (e.1 :: place) v path' scope)
        (Schema.Admits demand ∅ (t.inner env) e.2 v)
        (Schema.Admits demand (avoidedAt s external st.active path') (t.inner env) e.2 v))
    (hsees : Scope.Sees s external st.registry scope (t.inner env))
    (hst : st.registry.Sound s external) (hactive : ActiveAt s external bound jumps st.active path)
    (hdepth : path.length + value.depth ≤ bound) :
    Judges s external st
      (Checking.byCriterion (Checking.followUnder demand jumps) check t t.criterion place value path
        scope)
      (t.Meets (Schema.Admits demand) ∅ (t.inner env) value t.criterion)
      (t.Meets (Schema.Admits demand) (avoidedAt s external st.active path) (t.inner env) value
        t.criterion) := by
  cases hc : t.criterion with
  | reference text =>
    exact judges_reference hd hs hrec hf (Schema.reference_of_criterion hc) hsees hst hactive hdepth
  | union placed branches =>
    exact Checking.judges_union hst fun e he st' hadv =>
      hsub _ (Schema.mem_children_of_criterion hc he) hadv hactive hdepth
  | constant expected => exact decides_ite hst path _
  | enumeration members =>
    refine Decides.congr (decides_ite hst path _) ?_
    rw [List.any_eq_true]
    exact Iff.rfl
  | types types =>
    -- Nothing is to be avoided for the parts of a value.
    refine Checking.decides_byTypes hst (fun e he v step st' hlt hadv => ?_) types
    have h := hsub e he hadv (hactive.deeper step) (v := v) (by rw [List.length_cons]; omega)
    rw [hactive.avoidedAt_deeper step] at h
    exact h
  | anything => exact decides_pure hst trivial

/-- **Checks decide what fragments admit**, by induction over the references that are left to
follow and over fragments. -/
theorem judgesFragments (hd : DistinctNames s external) (hs : LexicallyScoped s external)
    (jumps : Nat) : JudgesFragments s external demand bound jumps := by
  induction jumps using Nat.strong_induction_on with
  | h jumps ih =>
    have hrec : ∀ j, jumps = j + 1 → JudgesFragments s external demand bound j :=
      fun j hj => ih j (by omega)
    intro t
    induction t using Schema.induction with
    | h t ihs =>
      intro place env value path scope st hf hsees hst hactive hdepth
      rw [Schema.fold_eq, Schema.admits_iff, Schema.admits_iff]
      refine Judges.bind ?_ fun st' hadv _ => decides_ite hadv.sound path _
      rw [Checking.step_eq]
      refine Checking.judges_enter hd hst hsees hf fun st' hadv hinner => ?_
      rw [← hadv.active] at hactive ⊢
      refine judges_byCriterion hd hs hrec hf (fun e he v path' st'' hadv' hactive' hdepth' => ?_)
        hinner hadv.sound hactive hdepth
      rw [← hadv'.active] at hactive' ⊢
      exact ihs e he (.child hf he) (hinner.mono hadv'.keeps) hadv'.sound hactive' hdepth'

/-- **A value is accepted under a demand exactly if the schema admits it.** -/
theorem validateUnder_iff (hd : DistinctNames s external) (hs : LexicallyScoped s external)
    (demand : Demand) (value : Value) :
    validateUnder demand s external value = .ok () ↔
      Schema.Admits demand ∅ [external] s value := by
  obtain ⟨hsound, hsees⟩ := Scope.sound_external hd
  let st : Checking := { registry := ScopeRegistry.declare {} (Scope.ofExternal external) }
  have hdepth : ([] : Path).length + value.depth ≤ value.depth := by simp
  have h : Judges s external st _ (Schema.Admits demand ∅ [external] s value)
      (Schema.Admits demand (avoidedAt s external st.active []) [external] s value) :=
    judgesFragments hd hs _ .root hsees hsound (activeAt_start value) hdepth
  obtain ⟨outcome, st', hrun, -, hp, hq⟩ := h
  rw [avoidedAt_nil] at hq
  have hvalidate : validateUnder demand s external value = outcome := congrArg Prod.fst hrun
  rw [hvalidate]
  exact ⟨hp, hq⟩

end

end SchemaGrammar
