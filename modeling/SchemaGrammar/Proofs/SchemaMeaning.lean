import SchemaGrammar.Check.Checker
import SchemaGrammar.Proofs.Scoping

/-!
# Which values a schema admits

What a schema says about a value, without runs, scopes or bounds on references: the first of its
keywords decides, and a reference stands for the definition that its name means in the layers
around it. A value is admitted if a finite argument says so, so definitions that lead back to
themselves admit nothing on that account; as for the languages of shapes, the equations are read as
one monotone operator and its least solution is taken.

The meaning has two parameters. A *demand* is asked of every value that is checked against a
fragment, on top of what the fragment says. The *avoided* definitions are those that the argument
may not use for the value at hand; it may use them for the parts of the value. Only the empty set
of them matters for what a schema means. The others are what a run has that is inside some
definitions and refuses to enter them again, and `Schema.Admits.insert` says that such a run loses
nothing: an argument for a definition that uses the same definition for the same value can be
shortened.

## Main definitions

* `Schema.criterion`: the keyword that decides.
* `Schema.AdmitsAs`: what is asked of a value of one type.
* `Schema.Admits`: the values that a fragment admits.

## Main results

* `Schema.admits_iff`: the meaning of a fragment in terms of that of its parts.
* `Schema.Admits.insert`: no definition is needed inside itself for the same value.
-/

namespace SchemaGrammar

open Json (Value)

/-! ## Keywords -/

/-- What decides which values a fragment admits. -/
inductive Criterion where
  | reference (text : String)
  | union (placed : Nat → PlaceStep) (branches : List Schema)
  | constant (value : Value)
  | enumeration (members : List Value)
  | types (types : List TypeName)
  | anything

/-- Whether any undeclared member can be allowed. -/
def Additional.isOpen {σ : Type} : Additional σ → Bool
  | .allowed yes => yes
  | .schema _ => true

namespace Schema

/-- The first keyword of a fragment decides. -/
def criterion (s : Schema) : Criterion :=
  match s.reference, s.oneOf, s.anyOf, s.constant, s.enumeration, s.types with
  | some text, _, _, _, _, _ => .reference text
  | none, some branches, _, _, _, _ => .union .oneOf branches
  | none, none, some branches, _, _, _ => .union .anyOf branches
  | none, none, none, some value, _, _ => .constant value
  | none, none, none, none, some members, _ => .enumeration members
  | none, none, none, none, none, some types => .types types.types
  | none, none, none, none, none, none => .anything

theorem reference_of_criterion {s : Schema} {text : String}
    (h : s.criterion = .reference text) : s.reference = some text := by
  unfold criterion at h
  split at h <;> cases h
  assumption

theorem mem_children_of_criterion {s : Schema} {placed : Nat → PlaceStep} {branches : List Schema}
    (h : s.criterion = .union placed branches) {e : Schema × Nat} (he : e ∈ branches.zipIdx) :
    (placed e.2, e.1) ∈ s.children := by
  unfold criterion at h
  split at h <;> cases h
  · exact oneOf_mem_children ‹_› he
  · exact anyOf_mem_children ‹_› he

theorem named?_of_criterion {s : Schema} {placed : Nat → PlaceStep} {branches : List Schema}
    (h : s.criterion = .union placed branches) (i : Nat) : (placed i).named? = none := by
  unfold criterion at h
  split at h <;> cases h <;> rfl

/-- Whether two unions would decide. -/
def clashes (s : Schema) : Bool := s.reference.isNone && s.oneOf.isSome && s.anyOf.isSome

/-- Whether a list may have `count` items. -/
def admitsCount (s : Schema) (count : Nat) : Bool :=
  let least := max (s.minItems.getD 0) (s.prefixItems.getD []).length
  Checking.within least (s.maxItems.map (max · least)) count

/-- The fragment for the item at a position, if it has one. -/
def itemAt? (s : Schema) (i : Nat) : Option Schema := (s.prefixItems.getD [])[i]?.or s.items

/-- Whether a string has the format of a fragment or, if there is none, the length. -/
def admitsText (s : Schema) (text : String) : Bool :=
  match s.textFormat? with
  | some format => format.accepts text
  | none =>
    let least := s.minLength.getD 0
    Checking.within least (s.maxLength.map (max · least)) text.length

/-- What a fragment asks of a value of one of its types; `sub` is what the fragments it is made of
ask of the parts of the value. -/
def AdmitsAs (sub : Schema → Value → Prop) (s : Schema) : TypeName → Value → Prop
  | .object, .object members =>
    (∀ m ∈ members, s.declared.contains m.1 = false → s.additional.any Additional.isOpen = true ∧
      ∀ c, s.additional = some (.schema c) → sub c m.2) ∧
    (∀ key ∈ s.declared.keys, s.isRequired key = true → Assoc.contains members key = true) ∧
    ∀ e ∈ s.declared, ∀ v, Assoc.get? e.1 members = some v → sub e.2 v
  | .array, .array values =>
    s.admitsCount values.length = true ∧
      ∀ i v c, values[i]? = some v → s.itemAt? i = some c → sub c v
  | .string, .string text => s.admitsText text = true
  | type, v => type.admits v = true

/-! ## The equations -/

/-- Something further that is asked of a value that is checked against a fragment. -/
abbrev Demand := Schema → Value → Bool

/-- Which values fragments admit, by the definitions to avoid and the layers around the fragment. -/
abbrev Meaning := Set Closure → Env → Schema → Value → Prop

/-- What decides about a value, given what the parts of a fragment mean. -/
def Meets (X : Meaning) (avoided : Set Closure) (env : Env) (s : Schema) (v : Value) :
    Criterion → Prop
  | .reference text => ∃ name c, definitionName? text = some name ∧ env.find? name = some c ∧
      c ∉ avoided ∧ X avoided c.env c.schema v
  | .union _ branches => ∃ b ∈ branches, X avoided env b v
  | .constant expected => v.same expected = true
  | .enumeration members => ∃ m ∈ members, m.same v = true
  | .types types => ∃ type ∈ types, s.AdmitsAs (X ∅ env) type v
  | .anything => True

/-- What a fragment means, given what its parts mean. -/
def meaningStep (demand : Demand) (X : Meaning) : Meaning := fun avoided env s v =>
  s.Meets X avoided (s.inner env) v s.criterion ∧ demand s v = true

theorem AdmitsAs.mono {sub sub' : Schema → Value → Prop} (h : ∀ c v, sub c v → sub' c v)
    {s : Schema} {type : TypeName} {v : Value} (ha : s.AdmitsAs sub type v) :
    s.AdmitsAs sub' type v := by
  unfold AdmitsAs at ha ⊢
  split at ha
  · obtain ⟨hmore, hrequired, hdeclared⟩ := ha
    refine ⟨fun m hm hkey => ?_, hrequired, fun e he v hv => h _ _ (hdeclared e he v hv)⟩
    exact (hmore m hm hkey).imp_right fun hc c hs => h _ _ (hc c hs)
  · exact ⟨ha.1, fun i v c hv hc => h _ _ (ha.2 i v c hv hc)⟩
  · exact ha
  · exact ha

theorem AdmitsAs.admits {sub : Schema → Value → Prop} {s : Schema} {type : TypeName} {v : Value}
    (h : s.AdmitsAs sub type v) : type.admits v = true := by
  unfold AdmitsAs at h
  split at h
  · rfl
  · rfl
  · rfl
  · exact h

theorem Meets.mono {X Y : Meaning} (h : ∀ avoided env s v, X avoided env s v → Y avoided env s v)
    {avoided : Set Closure} {env : Env} {s : Schema} {v : Value} {c : Criterion}
    (hm : s.Meets X avoided env v c) : s.Meets Y avoided env v c := by
  cases c with
  | reference text =>
    obtain ⟨name, c, hname, hfind, hfree, hx⟩ := hm
    exact ⟨name, c, hname, hfind, hfree, h _ _ _ _ hx⟩
  | union placed branches =>
    obtain ⟨b, hb, hx⟩ := hm
    exact ⟨b, hb, h _ _ _ _ hx⟩
  | types types =>
    obtain ⟨type, ht, ha⟩ := hm
    exact ⟨type, ht, ha.mono fun c v => h _ _ _ _⟩
  | constant expected => exact hm
  | enumeration members => exact hm
  | anything => exact hm

/-- The equations as a monotone operator. -/
def meaningOperator (demand : Demand) : Meaning →o Meaning where
  toFun := meaningStep demand
  monotone' := by
    intro X Y h avoided env s v hx
    exact ⟨hx.1.mono h, hx.2⟩

/-- The values that a fragment admits: the least solution of the equations. -/
def Admits (demand : Demand) : Meaning := OrderHom.lfp (meaningOperator demand)

section

variable {demand : Demand} {avoided : Set Closure} {env : Env} {s : Schema} {v : Value}

theorem admits_iff : Admits demand avoided env s v ↔
    s.Meets (Admits demand) avoided (s.inner env) v s.criterion ∧ demand s v = true := by
  have h := congrFun (congrFun (congrFun (congrFun (meaningOperator demand).map_lfp avoided) env) s)
    v
  exact iff_of_eq h.symm

/-- Induction over the finite argument that a value is admitted. -/
theorem Admits.induction {Y : Meaning}
    (h : ∀ avoided env s v, s.Meets Y avoided (s.inner env) v s.criterion → demand s v = true →
      Y avoided env s v)
    (hv : Admits demand avoided env s v) : Y avoided env s v := by
  have hle : Admits demand ≤ Y := OrderHom.lfp_le _ fun avoided env s v hm =>
    h avoided env s v hm.1 hm.2
  exact hle avoided env s v hv

/-- **No definition is needed inside itself for the same value.** -/
theorem Admits.insert {c : Closure} (h : Admits demand avoided c.env c.schema v) :
    Admits demand (Insert.insert c avoided) c.env c.schema v := by
  by_contra hnot
  -- If the definition needed itself, nothing that is admitted for this value would use it.
  let Y : Meaning := fun avoided' env s v' => Admits demand avoided' env s v' ∧
    (avoided' = avoided → v' = v → Admits demand (Insert.insert c avoided) env s v)
  have hY : Y avoided c.env c.schema v := by
    refine Admits.induction (fun avoided' env s v' hm hdemand => ?_) h
    refine ⟨admits_iff.mpr ⟨hm.mono fun _ _ _ _ hy => hy.1, hdemand⟩, ?_⟩
    rintro rfl rfl
    refine admits_iff.mpr ⟨?_, hdemand⟩
    cases hc : s.criterion with
    | reference text =>
      rw [hc] at hm
      obtain ⟨name, c', hname, hfind, hfree, hy⟩ := hm
      have hbody := hy.2 rfl rfl
      refine ⟨name, c', hname, hfind, ?_, hbody⟩
      rintro (rfl | hmem)
      · exact hnot hbody
      · exact hfree hmem
    | union placed branches =>
      rw [hc] at hm
      obtain ⟨b, hb, hy⟩ := hm
      exact ⟨b, hb, hy.2 rfl rfl⟩
    | types types =>
      rw [hc] at hm
      obtain ⟨type, ht, ha⟩ := hm
      exact ⟨type, ht, ha.mono fun _ _ hy => hy.1⟩
    | constant expected =>
      rw [hc] at hm
      exact hm
    | enumeration members =>
      rw [hc] at hm
      exact hm
    | anything => trivial
  exact hnot (hY.2 rfl rfl)

end

end Schema

end SchemaGrammar
