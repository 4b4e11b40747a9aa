import SchemaGrammar.Proofs.LoweringOutcome
import SchemaGrammar.Proofs.UnionBranches

/-!
# The order of properties

The shape of a definition is made where the definition is referred to first, and all references
share it. In a lexically scoped document it does not matter which reference is the first: the
properties of an object may be put in another order, and each has a shape that unfolds to the same
tree. Where in the table the shapes are may differ, and how deeply they are indented, so trees are
compared, up to the depth of layouts.

Both halves come from what is known of a table without the run that made it. Whether there is one
depends on what the document leads to. What a shape unfolds to is determined by the fragment that it
represents; this is by induction over the levels of the tree, with an induction over fragments inside,
since a union of one branch takes no level.

If a definition uses names that it gets from where it is referred to, the first reference decides for
all of them.

## Main definitions

* `Tree`, `Shapes.unfold`: what a shape unfolds to.
* `Shapes.Faithful`: what holds of a table that lowering made.
* `Lowered.propertyTree?`: what the value of a property unfolds to.
* `Schema.withProperties`: a fragment with its properties in another order.

## Main results

* `Shapes.Faithful.unfold_eq`: shapes that represent a fragment unfold to the same tree.
* `lower_withProperties`: the order of properties does not matter.
* `lower_leakyProperties`: it does if the document is not lexically scoped.
-/

namespace SchemaGrammar

open Json (Value)
open Relation (TransGen)

/-! ## Trees -/

/-- What a shape unfolds to: its parts in their places, and references with their targets. -/
inductive Tree where
  | cut
  | missing
  | terminal (t : Terminal)
  | array (leading : List Tree) (items : Tree) (least : Nat) (most : Option Nat) (style : Layout)
  | object (properties : List (String × Bool × Tree)) (additional : Option Tree) (style : Layout)
  | enumeration (members : List Tree)
  | union (members : List Tree)
  | reference (name : String) (target : Option Tree)
  | anyJson (style : Layout)

/-- The first level of a shape, given what its parts unfold to. -/
def Shape.tree (sub : ShapeId → Tree) : Shape → Tree
  | .terminal t => .terminal t
  | .array shape => .array (shape.leading.map sub) (sub shape.items) shape.least shape.most
      shape.layout.style
  | .object shape => .object (shape.properties.map fun p => (p.key, p.required, sub p.value))
      (shape.additional.map sub) shape.layout.style
  | .enumeration members => .enumeration (members.map sub)
  | .union members => .union (members.map sub)
  | .reference name target => .reference name (target.map sub)
  | .anyJson layout => .anyJson layout.style

namespace Shapes

/-- What the shape at a position unfolds to, down to a number of levels. -/
def unfold (shapes : Shapes) : (levels : Nat) → ShapeId → Tree
  | 0, _ => .cut
  | levels + 1, id =>
    match shapes.get? id with
    | none => .missing
    | some shape => shape.tree (unfold shapes levels)

/-- What holds of a table that lowering made. -/
structure Faithful (shapes : Shapes) (style : Layout) (standing : Standing) : Prop where
  inStyle : shapes.InStyle style
  several : ∀ {id members}, shapes.get? id = some (.union members) → 2 ≤ members.length
  settled : ∀ name c id, standing name c id → ∃ target,
    shapes.get? id = some (.reference name (some target)) ∧
      Represents shapes standing c.env c.schema target

end Shapes

/-- What the value of a property of the root unfolds to, down to a number of levels. -/
def Lowered.propertyTree? (lowered : Lowered) (levels : Nat) (key : String) : Option Tree :=
  match lowered.shapes.get? lowered.root with
  | some (.object shape) =>
    (shape.properties.find? (·.key = key)).map fun p => lowered.shapes.unfold levels p.value
  | _ => none

theorem exists_faithful {s : Schema} {external : Assoc Schema} {layout : Layout} {lowered : Lowered}
    (hd : DistinctNames s external) (hs : LexicallyScoped s external)
    (h : lower s external layout = .ok lowered) :
    ∃ standing, lowered.shapes.Faithful layout.style standing ∧
      Represents lowered.shapes standing [external] s lowered.root := by
  obtain ⟨standing, hrep⟩ := lower_represents hd hs h
  obtain ⟨-, -, -, -, hregular⟩ := lower_tidy (fun _ => True) (fun _ _ _ _ => trivial) trivial
    (fun _ _ => trivial) h
  exact ⟨standing, ⟨inStyle_lower h, fun hget => hregular hget, hrep.settled⟩, hrep.root⟩

/-! ## Lists in step -/

section

variable {α β γ δ : Type} {P : α → β → Prop} {Q : α → γ → Prop} {l : List α} {a : List β}
  {b : List γ}

theorem forall₂_join (h : List.Forall₂ P l a) (h' : List.Forall₂ Q l b) :
    List.Forall₂ (fun y z => ∃ x ∈ l, P x y ∧ Q x z) a b := by
  induction h generalizing b with
  | nil =>
    cases h'
    exact .nil
  | @cons x y l a hxy _ ih =>
    cases h' with
    | @cons _ z _ b hxz h' =>
      refine .cons ⟨x, List.mem_cons_self, hxy, hxz⟩ ((ih h').imp fun y z hex => ?_)
      obtain ⟨x', hx', hboth⟩ := hex
      exact ⟨x', List.mem_cons_of_mem x hx', hboth⟩

theorem map_eq_map_of_forall₂ {f : β → δ} {g : γ → δ}
    (h : List.Forall₂ (fun y z => f y = g z) a b) : a.map f = b.map g := by
  induction h with
  | nil => rfl
  | cons hyz _ ih => rw [List.map_cons, List.map_cons, hyz, ih]

end

/-- Bounds are determined by the numbers that are within them. -/
theorem within_inj {least least' : Nat} {most most' : Option Nat} (hle : ∀ m ∈ most, least ≤ m)
    (hle' : ∀ m ∈ most', least' ≤ m)
    (h : ∀ count, Checking.within least most count = Checking.within least' most' count) :
    least = least' ∧ most = most' := by
  have hwithin : ∀ {least most count}, Checking.within least most count = true ↔
      least ≤ count ∧ ∀ m ∈ most, count ≤ m := by
    intro least most count
    simp [Checking.within, Option.all_eq_true]
  have hiff : ∀ count, (least ≤ count ∧ ∀ m ∈ most, count ≤ m) ↔
      (least' ≤ count ∧ ∀ m ∈ most', count ≤ m) := by
    intro count
    rw [← hwithin, ← hwithin, h count]
  have hleast : least = least' :=
    Nat.le_antisymm ((hiff least').mpr ⟨Nat.le_refl _, hle'⟩).1
      ((hiff least).mp ⟨Nat.le_refl _, hle⟩).1
  refine ⟨hleast, ?_⟩
  subst hleast
  cases most with
  | none =>
    cases most' with
    | none => rfl
    | some m' =>
      have hm' := hle' m' rfl
      have hnext := ((hiff (m' + 1)).mp ⟨by omega, by simp⟩).2 m' rfl
      omega
  | some m =>
    have hm := hle m rfl
    cases most' with
    | none =>
      have hnext := ((hiff (m + 1)).mpr ⟨by omega, by simp⟩).2 m rfl
      omega
    | some m' =>
      have hm' := hle' m' rfl
      have hto := ((hiff m).mp ⟨hm, by simp⟩).2 m' rfl
      have hfrom := ((hiff m').mpr ⟨hm', by simp⟩).2 m rfl
      rw [Nat.le_antisymm hto hfrom]

/-! ## Shapes of the same fragment -/

section

variable {shapes shapes' : Shapes} {style : Layout} {standing standing' : Standing}
  {id id' : ShapeId} {n : Nat}

theorem Shapes.unfold_of_get? {shape : Shape} (h : shapes.get? id = some shape) (n : Nat) :
    shapes.unfold (n + 1) id = shape.tree (shapes.unfold n) := by
  rw [unfold, h]

theorem Shapes.IsLiteral.unfold_eq {value : Value} (h : shapes.IsLiteral value id)
    (h' : shapes'.IsLiteral value id') (n : Nat) : shapes.unfold n id = shapes'.unfold n id' := by
  obtain ⟨t, ht, hget⟩ := h
  obtain ⟨t', ht', hget'⟩ := h'
  cases ht.symm.trans ht'
  cases n with
  | zero => rfl
  | succ n => rw [unfold_of_get? hget, unfold_of_get? hget', Shape.tree, Shape.tree]

theorem Shapes.IsFree.unfold_eq (hstyle : shapes.InStyle style) (hstyle' : shapes'.InStyle style)
    (h : shapes.IsFree id) (h' : shapes'.IsFree id') (n : Nat) :
    shapes.unfold n id = shapes'.unfold n id' := by
  obtain ⟨layout, hget⟩ := h
  obtain ⟨layout', hget'⟩ := h'
  have hlayout : layout.style = style := (hstyle _ _ hget).2
  have hlayout' : layout'.style = style := (hstyle' _ _ hget').2
  cases n with
  | zero => rfl
  | succ n =>
    rw [unfold_of_get? hget, unfold_of_get? hget', Shape.tree, Shape.tree, hlayout, hlayout']

/-- Choices in step are among one each or among several. -/
theorem Shapes.IsChoice.unfold_eq {members members' : List ShapeId} {R : ShapeId → ShapeId → Prop}
    (hseveral : ∀ {id members}, shapes.get? id = some (.union members) → 2 ≤ members.length)
    (hseveral' : ∀ {id members}, shapes'.get? id = some (.union members) → 2 ≤ members.length)
    (h : shapes.IsChoice id members) (h' : shapes'.IsChoice id' members')
    (hR : List.Forall₂ R members members')
    (hone : R id id' → shapes.unfold (n + 1) id = shapes'.unfold (n + 1) id')
    (hmany : ∀ m m', R m m' → shapes.unfold n m = shapes'.unfold n m') :
    shapes.unfold (n + 1) id = shapes'.unfold (n + 1) id' := by
  have hlength := hR.length_eq
  rcases h with rfl | hget
  · rcases h' with rfl | hget'
    · cases hR with
      | cons hid _ => exact hone hid
    · have htwo := hseveral' hget'
      rw [List.length_singleton] at hlength
      omega
  · have htwo := hseveral hget
    rcases h' with rfl | hget'
    · rw [List.length_singleton] at hlength
      omega
    · rw [unfold_of_get? hget, unfold_of_get? hget', Shape.tree, Shape.tree,
        map_eq_map_of_forall₂ (hR.imp hmany)]

section

variable {sub sub' : Schema → ShapeId → Prop} {s : Schema}
  (hstyle : shapes.InStyle style) (hstyle' : shapes'.InStyle style)
  (hsub : ∀ c id id', sub c id → sub' c id' → shapes.unfold n id = shapes'.unfold n id')

include hstyle hstyle' hsub

theorem RepresentsMore.unfold_eq {more : Option (Additional Schema)} {extra extra' : Option ShapeId}
    (h : RepresentsMore shapes sub more extra) (h' : RepresentsMore shapes' sub' more extra') :
    extra.map (shapes.unfold n) = extra'.map (shapes'.unfold n) := by
  rcases more with _ | (_ | _) | c
  · rw [show extra = none from h, show extra' = none from h']
    rfl
  · rw [show extra = none from h, show extra' = none from h']
    rfl
  · obtain ⟨id, rfl, hfree⟩ := h
    obtain ⟨id', rfl, hfree'⟩ := h'
    rw [Option.map_some, Option.map_some, hfree.unfold_eq hstyle hstyle' hfree' n]
  · obtain ⟨id, rfl, hid⟩ := h
    obtain ⟨id', rfl, hid'⟩ := h'
    rw [Option.map_some, Option.map_some, hsub c id id' hid hid']

theorem RepresentsItems.unfold_eq {items : Option Schema}
    (h : RepresentsItems shapes sub items id) (h' : RepresentsItems shapes' sub' items id') :
    shapes.unfold n id = shapes'.unfold n id' := by
  cases items with
  | none => exact Shapes.IsFree.unfold_eq hstyle hstyle' h h' n
  | some c => exact hsub c id id' h h'

/-- Shapes of a fragment for one of its types unfold to the same tree if those of its parts do. -/
theorem RepresentsAs.unfold_eq {type : TypeName} (h : RepresentsAs shapes sub s type id)
    (h' : RepresentsAs shapes' sub' s type id') :
    shapes.unfold (n + 1) id = shapes'.unfold (n + 1) id' := by
  have hsame : ∀ shape, shapes.get? id = some shape → shapes'.get? id' = some shape →
      shape.tree (shapes.unfold n) = shape.tree (shapes'.unfold n) →
      shapes.unfold (n + 1) id = shapes'.unfold (n + 1) id' := by
    intro shape hget hget' htree
    rw [Shapes.unfold_of_get? hget, Shapes.unfold_of_get? hget', htree]
  cases type with
  | object =>
    obtain ⟨shape, hget, hproperties, hmore⟩ := h
    obtain ⟨shape', hget', hproperties', hmore'⟩ := h'
    have hlayout : shape.layout.style = style := (hstyle _ _ hget).2
    have hlayout' : shape'.layout.style = style := (hstyle' _ _ hget').2
    have hmap : shape.properties.map (fun p => (p.key, p.required, shapes.unfold n p.value)) =
        shape'.properties.map fun p => (p.key, p.required, shapes'.unfold n p.value) := by
      refine map_eq_map_of_forall₂ ((forall₂_join hproperties hproperties').imp fun p p' hp => ?_)
      obtain ⟨e, -, ⟨hkey, hrequired, hvalue⟩, hkey', hrequired', hvalue'⟩ := hp
      rw [hkey, hkey', hrequired, hrequired', hsub _ _ _ hvalue hvalue']
    rw [Shapes.unfold_of_get? hget, Shapes.unfold_of_get? hget', Shape.tree, Shape.tree, hmap,
      hmore.unfold_eq hstyle hstyle' hsub hmore', hlayout, hlayout']
  | array =>
    obtain ⟨shape, hget, hcount, hleading, hitems⟩ := h
    obtain ⟨shape', hget', hcount', hleading', hitems'⟩ := h'
    obtain ⟨⟨-, hbounds⟩, hlayout⟩ := hstyle _ _ hget
    obtain ⟨⟨-, hbounds'⟩, hlayout'⟩ := hstyle' _ _ hget'
    replace hlayout : shape.layout.style = style := hlayout
    replace hlayout' : shape'.layout.style = style := hlayout'
    obtain ⟨hleast, hmost⟩ := within_inj hbounds hbounds' fun count =>
      (hcount count).trans (hcount' count).symm
    have hmap : shape.leading.map (shapes.unfold n) = shape'.leading.map (shapes'.unfold n) := by
      refine map_eq_map_of_forall₂ ((forall₂_join hleading hleading').imp fun m m' hm => ?_)
      obtain ⟨c, -, hc, hc'⟩ := hm
      exact hsub c m m' hc hc'
    rw [Shapes.unfold_of_get? hget, Shapes.unfold_of_get? hget', Shape.tree, Shape.tree, hmap,
      hitems.unfold_eq hstyle hstyle' hsub hitems', hleast, hmost, hlayout, hlayout']
  | string =>
    obtain ⟨t, ht, hget⟩ := h
    obtain ⟨t', ht', hget'⟩ := h'
    cases ht.symm.trans ht'
    exact hsame _ hget hget' rfl
  | _ => exact hsame _ h h' rfl

end

/-- Shapes of a fragment for one of its types unfold to the same tree, if shapes of fragments do
at every smaller depth. -/
theorem Shapes.Faithful.unfold_typed_eq (h : shapes.Faithful style standing)
    (h' : shapes'.Faithful style standing') {n : Nat} {env : Env} {t : Schema}
    (below : ∀ k < n, ∀ c id id', Represents shapes standing env c id →
      Represents shapes' standing' env c id' → shapes.unfold k id = shapes'.unfold k id')
    {type : TypeName} (ha : RepresentsAs shapes (Represents shapes standing env) t type id)
    (ha' : RepresentsAs shapes' (Represents shapes' standing' env) t type id') :
    shapes.unfold n id = shapes'.unfold n id' := by
  cases n with
  | zero => rfl
  | succ n => exact ha.unfold_eq h.inStyle h'.inStyle (below n n.lt_succ_self) ha'

/-- **Shapes that represent a fragment unfold to the same tree**, also if they are in tables of
different documents. -/
theorem Shapes.Faithful.unfold_eq (h : shapes.Faithful style standing)
    (h' : shapes'.Faithful style standing') (n : Nat) {env : Env} {t : Schema}
    (hr : Represents shapes standing env t id) (hr' : Represents shapes' standing' env t id') :
    shapes.unfold n id = shapes'.unfold n id' := by
  induction n using Nat.strong_induction_on generalizing env t id id' with
  | _ n below =>
    cases n with
    | zero => rfl
    | succ n =>
      -- a choice among one is that one, at the same depth: so the induction goes on over fragments
      induction t using Schema.induction generalizing env id id' with
      | h t ih =>
        rw [represents_iff] at hr hr'
        cases hc : t.criterion with
        | reference text =>
          rw [hc] at hr hr'
          obtain ⟨name, c, hname, hfind, hstanding⟩ := hr
          obtain ⟨name', c', hname', hfind', hstanding'⟩ := hr'
          cases hname.symm.trans hname'
          cases hfind.symm.trans hfind'
          obtain ⟨target, hget, hbody⟩ := h.settled name c id hstanding
          obtain ⟨target', hget', hbody'⟩ := h'.settled name c id' hstanding'
          rw [unfold_of_get? hget, unfold_of_get? hget', Shape.tree, Shape.tree, Option.map_some,
            Option.map_some, below n (Nat.lt_succ_self n) hbody hbody']
        | union placed branches =>
          rw [hc] at hr hr'
          obtain ⟨-, members, hchoice, hbranches⟩ := hr
          obtain ⟨-, members', hchoice', hbranches'⟩ := hr'
          refine hchoice.unfold_eq h.several h'.several hchoice' (forall₂_join hbranches hbranches')
            (fun hone => ?_) fun m m' hm => ?_
          · obtain ⟨b, hb, hbody, hbody'⟩ := hone
            obtain ⟨i, hi⟩ := Schema.exists_mem_zipIdx hb
            exact ih _ (Schema.mem_children_of_criterion hc hi) hbody hbody'
          · obtain ⟨b, -, hbody, hbody'⟩ := hm
            exact below n (Nat.lt_succ_self n) hbody hbody'
        | constant value =>
          rw [hc] at hr hr'
          exact IsLiteral.unfold_eq hr hr' (n + 1)
        | enumeration values =>
          rw [hc] at hr hr'
          obtain ⟨members, hget, hmembers⟩ := hr
          obtain ⟨members', hget', hmembers'⟩ := hr'
          rw [unfold_of_get? hget, unfold_of_get? hget', Shape.tree, Shape.tree]
          refine congrArg Tree.enumeration
            (map_eq_map_of_forall₂ ((forall₂_join hmembers hmembers').imp fun m m' hm => ?_))
          obtain ⟨value, -, hvalue, hvalue'⟩ := hm
          exact hvalue.unfold_eq hvalue' n
        | types types =>
          rw [hc] at hr hr'
          obtain ⟨members, hchoice, htypes⟩ := hr
          obtain ⟨members', hchoice', htypes'⟩ := hr'
          refine hchoice.unfold_eq h.several h'.several hchoice' (forall₂_join htypes htypes')
            (fun hone => ?_) fun m m' hm => ?_
          · obtain ⟨type, -, ⟨-, ha⟩, -, ha'⟩ := hone
            exact h.unfold_typed_eq h' (fun k hk _ _ _ => below k hk) ha ha'
          · obtain ⟨type, -, ⟨-, ha⟩, -, ha'⟩ := hm
            exact h.unfold_typed_eq h' (fun k hk _ _ _ => below k (hk.trans n.lt_succ_self)) ha ha'
        | anything =>
          rw [hc] at hr hr'
          exact IsFree.unfold_eq h.inStyle h'.inStyle hr hr' (n + 1)

end

/-! ## Other orders -/

/-- A fragment with other properties. -/
def Schema.withProperties (s : Schema) (properties : Assoc Schema) : Schema :=
  { s with properties := some properties }

section

variable {s : Schema} {external reordered : Assoc Schema} {layout : Layout}

theorem Schema.mem_children_withProperties (hperm : reordered.Perm s.declared)
    {e : PlaceStep × Schema} : e ∈ (s.withProperties reordered).children ↔ e ∈ s.children := by
  have hdeclared : (s.withProperties reordered).declared = reordered := rfl
  have hproperties := (hperm.map fun e => (PlaceStep.property e.1, e.2)).mem_iff (a := e)
  simp only [children, List.mem_append, hdeclared, hproperties]
  rfl

theorem DistinctNames.withProperties (hd : DistinctNames s external)
    (hperm : reordered.Perm s.declared) :
    DistinctNames (s.withProperties reordered) external := by
  obtain ⟨hdeclared, hdefinitions, hchildren⟩ := Schema.isDistinct_iff.mp hd.schema
  refine ⟨hd.names, Schema.isDistinct_iff.mpr ⟨?_, hdefinitions, fun e he => ?_⟩, hd.external⟩
  · exact (hperm.map Prod.fst).nodup_iff.mpr hdeclared
  · exact hchildren e ((Schema.mem_children_withProperties hperm).mp he)

theorem LexicallyScoped.withProperties (hs : LexicallyScoped s external)
    (hperm : reordered.Perm s.declared) :
    LexicallyScoped (s.withProperties reordered) external := by
  obtain ⟨hreference, hchildren⟩ := Schema.isScoped_iff.mp hs.schema
  refine ⟨Schema.isScoped_iff.mpr ⟨hreference, fun e he => ?_⟩, hs.external⟩
  exact hchildren e ((Schema.mem_children_withProperties hperm).mp he)

theorem Schema.supports_withProperties (hperm : reordered.Perm s.declared) :
    (s.withProperties reordered).supports .object = s.supports .object := by
  have hcontains : ∀ key, reordered.contains key = s.declared.contains key := by
    intro key
    rw [Bool.eq_iff_iff, Assoc.contains_iff, Assoc.contains_iff]
    exact (hperm.map Prod.fst).mem_iff
  have hdeclared : (s.withProperties reordered).declared = reordered := rfl
  simp only [supports, Lowering.undeclared?, hdeclared, hcontains]
  rfl

theorem Schema.perm_used_withProperties (hperm : reordered.Perm s.declared)
    (hobject : s.criterion = .types [.object]) : (s.withProperties reordered).used.Perm s.used := by
  have hobject' : (s.withProperties reordered).criterion = .types [.object] := hobject
  rw [used_of_types hobject, used_of_types hobject', List.flatMap_singleton, List.flatMap_singleton]
  exact (hperm.map Prod.snd).append_right _

/-- The order of properties makes no flaw and removes none. -/
theorem flawed_withProperties_iff (hperm : reordered.Perm s.declared) {env : Env}
    (hobject : s.criterion = .types [.object]) :
    Closure.Flawed ⟨s.withProperties reordered, env⟩ ↔ Closure.Flawed ⟨s, env⟩ := by
  have hobject' : (s.withProperties reordered).criterion = .types [.object] := hobject
  have hcycle : ∀ {t : Schema}, t.criterion = .types [.object] →
      ¬ TransGen Closure.Begins ⟨t, env⟩ ⟨t, env⟩ := by
    intro t ht hcycle
    obtain ⟨d, hstep, -⟩ := TransGen.head'_iff.mp hcycle
    cases hstep with
    | branch hc _ => cases ht.symm.trans hc
    | target hd =>
      obtain ⟨text, name, hc, -⟩ := hd
      cases ht.symm.trans hc
  have hsupported : (s.withProperties reordered).isSupported = s.isSupported := by
    simp [Schema.isSupported, hobject, hobject', Schema.supports_withProperties hperm]
  have huses : ∀ d, Closure.Uses ⟨s.withProperties reordered, env⟩ d ↔ Closure.Uses ⟨s, env⟩ d := by
    have hto : ∀ {t t' : Schema} {d : Closure}, t.criterion = .types [.object] →
        t.inner env = t'.inner env → t.used ⊆ t'.used → Closure.Uses ⟨t, env⟩ d →
        Closure.Uses ⟨t', env⟩ d := by
      intro t t' d ht hinner hused huses
      cases huses with
      | part hpart => exact hinner ▸ .part (c := ⟨t', env⟩) (hused hpart)
      | target hd =>
        obtain ⟨text, name, hc, -⟩ := hd
        cases ht.symm.trans hc
    have hused := Schema.perm_used_withProperties hperm hobject
    exact fun d => ⟨hto hobject' rfl hused.subset, hto hobject rfl hused.symm.subset⟩
  rw [Closure.flawed_iff, Closure.flawed_iff]
  simp only [hcycle hobject, hcycle hobject', hsupported, huses]

/-- The shape of an object has one property for each that is declared, and admits additional members
if the object does. -/
theorem Shapes.Faithful.exists_object {shapes : Shapes} {style : Layout} {standing : Standing}
    (h : shapes.Faithful style standing) (hobject : s.criterion = .types [.object]) {env : Env}
    {id : ShapeId} (hr : Represents shapes standing env s id) :
    ∃ shape, shapes.get? id = some (.object shape) ∧
      List.Forall₂ (fun e p => p.key = e.1 ∧ p.required = s.isRequired e.1 ∧
        Represents shapes standing (s.inner env) e.2 p.value) s.declared shape.properties ∧
      RepresentsMore shapes (Represents shapes standing (s.inner env)) s.additional
        shape.additional := by
  rw [represents_iff, hobject] at hr
  obtain ⟨members, hchoice, htypes⟩ := hr
  obtain ⟨m, _, ⟨-, hshape⟩, hnil, rfl⟩ := List.forall₂_cons_left_iff.mp htypes
  cases hnil
  rcases hchoice with hone | hunion
  · cases hone
    exact hshape
  · exact absurd (h.several hunion) (by simp)

/-- The value of a declared property represents its fragment. -/
theorem Shapes.Faithful.exists_value {lowered : Lowered} {style : Layout} {standing : Standing}
    (h : lowered.shapes.Faithful style standing) (hobject : s.criterion = .types [.object])
    (hdistinct : s.declared.keys.Nodup) {env : Env}
    (hr : Represents lowered.shapes standing env s lowered.root) {e : String × Schema}
    (he : e ∈ s.declared) :
    ∃ id, Represents lowered.shapes standing (s.inner env) e.2 id ∧
      ∀ n, lowered.propertyTree? n e.1 = some (lowered.shapes.unfold n id) := by
  obtain ⟨shape, hget, hproperties, -⟩ := h.exists_object hobject hr
  obtain ⟨p, hp, hkey, -, -⟩ := exists_mem_right hproperties he
  obtain ⟨found, hfound⟩ : ∃ found, shape.properties.find? (·.key = e.1) = some found :=
    Option.isSome_iff_exists.mp (List.find?_isSome.mpr ⟨p, hp, by simpa using hkey⟩)
  have hfoundKey : found.key = e.1 := by simpa using List.find?_some hfound
  obtain ⟨e', he', hkey', -, hvalue⟩ := exists_mem_left hproperties (List.mem_of_find?_eq_some hfound)
  have heq : e' = e := List.inj_on_of_nodup_map hdistinct he' he (hkey'.symm.trans hfoundKey)
  refine ⟨found.value, heq ▸ hvalue, fun n => ?_⟩
  simp only [Lowered.propertyTree?, hget, hfound, Option.map_some]

/-- **The order of properties does not matter.** If an object of a lexically scoped document has its
properties in another order, it has shapes if and only if it had some, and the values of its
properties unfold to the same trees. -/
theorem lower_withProperties (hd : DistinctNames s external) (hs : LexicallyScoped s external)
    (hobject : s.criterion = .types [.object]) (hperm : reordered.Perm s.declared) :
    ((lower s external layout).isOk = true ↔
        (lower (s.withProperties reordered) external layout).isOk = true) ∧
      ∀ lowered lowered', lower s external layout = .ok lowered →
        lower (s.withProperties reordered) external layout = .ok lowered' →
        ∀ e ∈ s.declared, ∀ n, ∃ tree, lowered.propertyTree? n e.1 = some tree ∧
          lowered'.propertyTree? n e.1 = some tree := by
  have hd' := hd.withProperties hperm
  have hs' := hs.withProperties hperm
  constructor
  · rw [lower_isOk_iff hd hs, lower_isOk_iff hd' hs', flawed_withProperties_iff hperm hobject]
  · intro lowered lowered' h h' e he n
    obtain ⟨standing, hfaithful, hroot⟩ := exists_faithful hd hs h
    obtain ⟨standing', hfaithful', hroot'⟩ := exists_faithful hd' hs' h'
    obtain ⟨id, hr, htree⟩ := hfaithful.exists_value hobject
      (Schema.isDistinct_iff.mp hd.schema).1 hroot he
    obtain ⟨id', hr', htree'⟩ := hfaithful'.exists_value (s := s.withProperties reordered) hobject
      (Schema.isDistinct_iff.mp hd'.schema).1 hroot' (hperm.mem_iff.mpr he)
    refine ⟨_, htree n, ?_⟩
    rw [htree' n, hfaithful.unfold_eq hfaithful' n hr hr']

end

/-! ## Names from the place of a reference -/

/-- A definition `a`: an `x`, or a list of what it defines. -/
def nestingDefinition : Schema :=
  { anyOf := some
      [{ reference := some "#/$defs/x" },
       { types := some (.one .array), items := some { reference := some "#/$defs/a" } }] }

/-- An object with two properties that refer to `a`, one of them from where `x` is hidden. -/
def nestingProperties : Schema :=
  { types := some (.one .object)
    definitions := some [("x", { types := some (.one .integer) }), ("a", nestingDefinition)]
    properties := some [("p", branchWith .string), ("q", { reference := some "#/$defs/a" })] }

theorem lower_nestingProperties :
    let reordered := [("q", { reference := some "#/$defs/a" }), ("p", branchWith .string)]
    DistinctNames nestingProperties [] ∧ LexicallyScoped nestingProperties [] ∧
      reordered.Perm nestingProperties.declared ∧
      (lower nestingProperties [] ⟨true, 4, 0⟩).isOk = true ∧
      (lower (nestingProperties.withProperties reordered) [] ⟨true, 4, 0⟩).isOk = true ∧
      ∀ lowered lowered', lower nestingProperties [] ⟨true, 4, 0⟩ = .ok lowered →
        lower (nestingProperties.withProperties reordered) [] ⟨true, 4, 0⟩ = .ok lowered' →
        ∀ n, ∃ tree, lowered.propertyTree? n "p" = some tree ∧
          lowered'.propertyTree? n "p" = some tree := by
  intro reordered
  have hd : DistinctNames nestingProperties [] :=
    ⟨by simp [Assoc.keys], by decide +kernel, by simp⟩
  have hs : LexicallyScoped nestingProperties [] := ⟨by decide +kernel, by simp⟩
  have hperm : reordered.Perm nestingProperties.declared := .swap _ _ _
  have hlower : (lower nestingProperties [] ⟨true, 4, 0⟩).isOk = true := by decide +kernel
  exact ⟨hd, hs, hperm, hlower, (lower_withProperties hd hs rfl hperm).1.mp hlower,
    fun lowered lowered' h h' =>
      (lower_withProperties hd hs rfl hperm).2 lowered lowered' h h' _ List.mem_cons_self⟩

/-- An object with a definition that refers to `x`, and two properties that define `x` and refer to
the definition. -/
def leakyProperties : Schema :=
  { types := some (.one .object)
    definitions := some [("a", { reference := some "#/$defs/x" })]
    properties := some [("p", branchWith .string), ("q", branchWith .number)] }

/-- If the document is not lexically scoped, the first reference decides: each order of the two
properties gives both of them the `x` of the first. -/
theorem lower_leakyProperties :
    ((lower leakyProperties [] ⟨true, 4, 0⟩).toOption.bind (·.propertyTree? 3 "q")) =
        some (.reference "a" (some (.reference "x" (some (.terminal (.string ⟨0, none⟩)))))) ∧
      ((lower (leakyProperties.withProperties [("q", branchWith .number),
          ("p", branchWith .string)]) [] ⟨true, 4, 0⟩).toOption.bind (·.propertyTree? 3 "q")) =
        some (.reference "a" (some (.reference "x" (some (.terminal (.number true)))))) :=
  ⟨rfl, rfl⟩

end SchemaGrammar
