import SchemaGrammar.Proofs.StoredSchemas

/-!
# Values without repeated members

A value that is read from a text and kept has no repeated members: each name keeps its first place
and takes its last value. A schema may also be read before this is done. Whatever can be read then
is read afterwards as well, and in the same way: a repeated keyword is refused, other names of a
schema are not looked at, and in a map the last entry under a name is the one that counts.

## Main results

* `Json.Value.isDistinct_collapsed`: after collapsing no member is repeated.
* `Json.Value.itemsInForm_eq_ok_iff`, `Json.Value.entriesInForm_eq_ok_iff`: lists and maps are read
  entry by entry.
* `Json.Value.inForm_collapsed`: what is read of a value is read of the collapsed one.
-/

namespace SchemaGrammar

open Json (Value ReadError Step)

/-! ## Maps -/

namespace Assoc

variable {α β : Type}

/-- Names that are not repeated are left as they are. -/
theorem filter_ofList {p : String → Bool} {entries : Assoc α}
    (h : (keys (entries.filter fun e => p e.1)).Nodup) :
    (ofList entries).filter (fun e => p e.1) = entries.filter fun e => p e.1 := by
  rw [ofList, filter_update, List.filter_nil]
  exact ofList_of_nodup h

section

variable {R : String × α → String × β → Prop} {older newer : Assoc α} {older' newer' : Assoc β}

theorem forall₂_insert (hR : ∀ e e', R e e' → e.1 = e'.1) {e : String × α} {e' : String × β}
    (he : R e e') (h : List.Forall₂ R older older') :
    List.Forall₂ R (older.insert e.1 e.2) (older'.insert e'.1 e'.2) := by
  have hkey : e.1 = e'.1 := hR e e' he
  induction h with
  | nil => exact .cons he .nil
  | @cons head head' _ _ hhead _ ih =>
    have hnames : head.1 = head'.1 := hR _ _ hhead
    by_cases hname : head.1 = e.1
    · have hname' : head'.1 = e'.1 := by rw [← hnames, hname, hkey]
      simp only [insert, if_pos hname, if_pos hname']
      exact .cons (by rw [hname, hname']; exact he) ‹_›
    · have hname' : ¬ head'.1 = e'.1 := by rwa [← hnames, ← hkey]
      simp only [insert, if_neg hname, if_neg hname']
      exact .cons hhead ih

theorem forall₂_update (hR : ∀ e e', R e e' → e.1 = e'.1) (h : List.Forall₂ R newer newer')
    (ho : List.Forall₂ R older older') :
    List.Forall₂ R (update older newer) (update older' newer') := by
  induction h generalizing older older' with
  | nil => exact ho
  | cons he _ ih => exact ih (forall₂_insert hR he ho)

theorem forall₂_ofList (hR : ∀ e e', R e e' → e.1 = e'.1) (h : List.Forall₂ R newer newer') :
    List.Forall₂ R (ofList newer) (ofList newer') :=
  forall₂_update hR h .nil

end

theorem nodup_keys_ofList (entries : Assoc α) : (keys (ofList entries)).Nodup :=
  nodup_keys_update (by simp [keys]) entries

end Assoc

namespace Json.Value

/-! ## Collapsing -/

/-- The values inside a value. -/
def children : Value → List Value
  | .array items => items
  | .object members => members.map Prod.snd
  | _ => []

theorem sizeOf_lt_of_mem_children {v w : Value} (h : w ∈ v.children) : sizeOf w < sizeOf v := by
  cases v with
  | null | bool | number | string => simp [children] at h
  | array items =>
    have hlt := List.sizeOf_lt_of_mem (show w ∈ items from h)
    simp only [array.sizeOf_spec]
    omega
  | object members =>
    obtain ⟨⟨name, w⟩, hmem, rfl⟩ := List.mem_map.mp h
    have hlt := List.sizeOf_lt_of_mem hmem
    simp only [Prod.mk.sizeOf_spec] at hlt
    simp only [object.sizeOf_spec]
    omega

/-- Induction over values. -/
theorem induction {motive : Value → Prop} (h : ∀ v : Value, (∀ w ∈ v.children, motive w) → motive v)
    (v : Value) : motive v :=
  h v fun w _ => induction h w
termination_by sizeOf v
decreasing_by exact sizeOf_lt_of_mem_children ‹_›

theorem collapsedItems_eq (items : List Value) : collapsedItems items = items.map collapsed := by
  induction items with
  | nil => rfl
  | cons item items ih => rw [collapsedItems, ih, List.map_cons]

theorem collapsedMembers_eq (members : List (String × Value)) :
    collapsedMembers members = members.map fun m => (m.1, m.2.collapsed) := by
  induction members with
  | nil => rfl
  | cons m members ih => rw [collapsedMembers, ih, List.map_cons]

theorem kind_collapsed (v : Value) : v.collapsed.kind = v.kind := by
  cases v <;> rfl

theorem itemsDistinct_iff {items : List Value} :
    itemsDistinct items = true ↔ ∀ v ∈ items, v.isDistinct = true := by
  induction items with
  | nil => simp [itemsDistinct]
  | cons item items ih => simp [itemsDistinct, ih]

theorem membersDistinct_iff {members : List (String × Value)} :
    membersDistinct members = true ↔ ∀ m ∈ members, m.2.isDistinct = true := by
  induction members with
  | nil => simp [membersDistinct]
  | cons m members ih =>
    rw [membersDistinct, Bool.and_eq_true, ih, List.forall_mem_cons]

/-- **After collapsing no member is repeated.** -/
theorem isDistinct_collapsed (v : Value) : v.collapsed.isDistinct = true := by
  induction v using induction with
  | h v ih =>
    cases v with
    | null | bool | number | string => rfl
    | array items =>
      rw [collapsed, isDistinct, collapsedItems_eq, itemsDistinct_iff]
      rintro _ hmem
      obtain ⟨w, hw, rfl⟩ := List.mem_map.mp hmem
      exact ih w hw
    | object members =>
      rw [collapsed, isDistinct, Bool.and_eq_true, decide_eq_true_iff, membersDistinct_iff]
      refine ⟨Assoc.nodup_keys_ofList _, fun m hm => ?_⟩
      have hmem := (Assoc.mem_of_mem_update hm).resolve_right List.not_mem_nil
      rw [collapsedMembers_eq] at hmem
      obtain ⟨m', hm', rfl⟩ := List.mem_map.mp hmem
      exact ih m'.2 (List.mem_map.mpr ⟨m', hm', rfl⟩)

theorem collapsed_collapsed (v : Value) : v.collapsed.collapsed = v.collapsed :=
  collapsed_of_isDistinct _ (isDistinct_collapsed v)

/-! ## Entry by entry -/

theorem forall₂_imp_of_mem {α β : Type} {R S : α → β → Prop} {l : List α} {l' : List β}
    (himp : ∀ a ∈ l, ∀ b, R a b → S a b) (h : List.Forall₂ R l l') : List.Forall₂ S l l' := by
  induction h with
  | nil => exact .nil
  | cons hab _ ih =>
    obtain ⟨ha, hl⟩ := List.forall_mem_cons.mp himp
    exact .cons (ha _ hab) (ih hl)

theorem bind_eq_ok_iff {ε α β : Type} {m : Except ε α} {f : α → Except ε β} {b : β} :
    (m >>= f) = .ok b ↔ ∃ a, m = .ok a ∧ f a = .ok b := by
  cases m <;> simp [Bind.bind, Except.bind]

theorem mapError_eq_ok_iff {ε ε' α : Type} {m : Except ε α} {f : ε → ε'} {a : α} :
    m.mapError f = .ok a ↔ m = .ok a := by
  cases m <;> simp [Except.mapError]

section

variable {form : Form}

/-- A list is read item by item. -/
theorem itemsInForm_eq_ok_iff {values : List Value} {index : Nat} {xs : List form.Carrier} :
    itemsInForm form values index = .ok xs ↔
      List.Forall₂ (fun v x => v.inForm form = .ok x) values xs := by
  induction values generalizing index xs with
  | nil =>
    rw [List.forall₂_nil_left_iff]
    exact ⟨fun h => (Except.ok.inj h).symm, fun h => h ▸ rfl⟩
  | cons v values ih =>
    simp only [itemsInForm_cons, bind_eq_ok_iff, mapError_eq_ok_iff, ih, List.forall₂_cons_left_iff]
    constructor
    · rintro ⟨x, hx, xs', hxs, ⟨⟩⟩
      exact ⟨x, xs', hx, hxs, rfl⟩
    · rintro ⟨x, xs', hx, hxs, rfl⟩
      exact ⟨x, hx, xs', hxs, rfl⟩

/-- A map is read entry by entry. -/
theorem entriesInForm_eq_ok_iff {members : List (String × Value)}
    {entries : List (String × form.Carrier)} :
    entriesInForm form members = .ok entries ↔
      List.Forall₂ (fun m e => m.1 = e.1 ∧ m.2.inForm form = .ok e.2) members entries := by
  induction members generalizing entries with
  | nil =>
    rw [List.forall₂_nil_left_iff]
    exact ⟨fun h => (Except.ok.inj h).symm, fun h => h ▸ rfl⟩
  | cons m members ih =>
    obtain ⟨name, v⟩ := m
    simp only [entriesInForm_cons, bind_eq_ok_iff, mapError_eq_ok_iff, ih,
      List.forall₂_cons_left_iff]
    constructor
    · rintro ⟨x, hx, xs, hxs, ⟨⟩⟩
      exact ⟨(name, x), xs, ⟨rfl, hx⟩, hxs, rfl⟩
    · rintro ⟨⟨_, x⟩, xs, ⟨rfl, hx⟩, hxs, rfl⟩
      exact ⟨x, hx, xs, hxs, rfl⟩

end

/-! ## Reading a collapsed value -/

/-- What is read of the value is also read of the collapsed one. -/
def KeepsForm (v : Value) : Prop :=
  ∀ (form : Form) (x : form.Carrier), v.inForm form = .ok x → v.collapsed.inForm form = .ok x

theorem putRead_collapsed {s s' : Schema} {k : Keyword} {v : Value} (hv : v.KeepsForm)
    (h : s.putRead k v (v.inForm k.form) = .ok s') :
    s.putRead k v.collapsed (v.collapsed.inForm k.form) = .ok s' := by
  unfold Schema.putRead at h ⊢
  rw [kind_collapsed]
  split at h
  · next hnull => rw [if_pos hnull, h]
  · next hnull =>
    rw [if_neg hnull]
    cases hread : v.inForm k.form with
    | error e =>
      rw [hread] at h
      cases h
    | ok x =>
      rw [hread] at h
      rw [hv k.form x hread, h]

theorem schemaOfPositions_collapsed {items : List Value} (hitems : ∀ v ∈ items, v.KeepsForm)
    {length length' index : Nat} {keywords : List Keyword} {s s' : Schema}
    (h : schemaOfPositions items length index keywords s = .ok s') :
    schemaOfPositions (items.map collapsed) length' index keywords s = .ok s' := by
  induction items generalizing index keywords s with
  | nil => exact h
  | cons v items ih =>
    obtain ⟨hv, hitems⟩ := List.forall_mem_cons.mp hitems
    cases keywords with
    | nil => cases h
    | cons k keywords =>
      obtain ⟨t, ht, h⟩ := bind_eq_ok_iff.mp h
      have ht' := putRead_collapsed hv (mapError_eq_ok_iff.mp ht)
      exact bind_eq_ok_iff.mpr ⟨t, mapError_eq_ok_iff.mpr ht', ih hitems h⟩

section

variable {name : String} {k : Keyword} {v : Value} {members : List (String × Value)}
  {seen : List Keyword} {s s' : Schema}

theorem schemaOfMembers_of_other (h : Keyword.ofName? name = none) :
    schemaOfMembers ((name, v) :: members) seen s = schemaOfMembers members seen s := by
  rw [schemaOfMembers, h]

theorem schemaOfMembers_keyword_iff (h : Keyword.ofName? name = some k) :
    schemaOfMembers ((name, v) :: members) seen s = .ok s' ↔
      k ∉ seen ∧ ∃ t, s.putRead k v (v.inForm k.form) = .ok t ∧
        schemaOfMembers members (k :: seen) t = .ok s' := by
  rw [schemaOfMembers, h]
  by_cases hk : k ∈ seen
  · simp [hk]
  · simp only [hk, if_false, bind_eq_ok_iff, mapError_eq_ok_iff, not_false_eq_true, true_and]

/-- Whether a member is one of a keyword. -/
def isKeyword (name : String) : Bool := (Keyword.ofName? name).isSome

/-- Other members are not looked at. -/
theorem schemaOfMembers_filter :
    schemaOfMembers members seen s = .ok s' ↔
      schemaOfMembers (members.filter fun m => isKeyword m.1) seen s = .ok s' := by
  induction members generalizing seen s with
  | nil => rfl
  | cons m members ih =>
    obtain ⟨name, v⟩ := m
    cases hname : Keyword.ofName? name with
    | none =>
      rw [schemaOfMembers_of_other hname, ih, List.filter_cons_of_neg (by simp [isKeyword, hname])]
    | some k =>
      rw [List.filter_cons_of_pos (by simp [isKeyword, hname]), schemaOfMembers_keyword_iff hname,
        schemaOfMembers_keyword_iff hname]
      simp only [ih]

/-- Keywords are not repeated where reading succeeds. -/
theorem nodup_of_schemaOfMembers (h : schemaOfMembers members seen s = .ok s') :
    (Assoc.keys (members.filter fun m => isKeyword m.1)).Nodup ∧
      ∀ name ∈ Assoc.keys (members.filter fun m => isKeyword m.1),
        ∀ k, Keyword.ofName? name = some k → k ∉ seen := by
  induction members generalizing seen s with
  | nil => simp [Assoc.keys]
  | cons m members ih =>
    obtain ⟨name, v⟩ := m
    cases hname : Keyword.ofName? name with
    | none =>
      rw [schemaOfMembers_of_other hname] at h
      rw [List.filter_cons_of_neg (by simp [isKeyword, hname])]
      exact ih h
    | some k =>
      obtain ⟨hk, t, -, h⟩ := (schemaOfMembers_keyword_iff hname).mp h
      obtain ⟨hnodup, hseen⟩ := ih h
      rw [List.filter_cons_of_pos (by simp [isKeyword, hname])]
      have hnew : name ∉ Assoc.keys (members.filter fun m => isKeyword m.1) := fun hmem =>
        hseen name hmem k hname List.mem_cons_self
      refine ⟨List.nodup_cons.mpr ⟨hnew, hnodup⟩, List.forall_mem_cons.mpr ⟨?_, ?_⟩⟩
      · rintro k' hk'
        rwa [← Option.some.inj (hname.symm.trans hk')]
      · exact fun other hother k' hk' hmem =>
          hseen other hother k' hk' (List.mem_cons_of_mem _ hmem)

theorem schemaOfMembers_map_collapsed (hmembers : ∀ m ∈ members, m.2.KeepsForm)
    (h : schemaOfMembers members seen s = .ok s') :
    schemaOfMembers (members.map fun m => (m.1, m.2.collapsed)) seen s = .ok s' := by
  induction members generalizing seen s with
  | nil => exact h
  | cons m members ih =>
    obtain ⟨name, v⟩ := m
    obtain ⟨hv, hmembers⟩ := List.forall_mem_cons.mp hmembers
    rw [List.map_cons]
    cases hname : Keyword.ofName? name with
    | none =>
      rw [schemaOfMembers_of_other hname] at h ⊢
      exact ih hmembers h
    | some k =>
      obtain ⟨hk, t, ht, h⟩ := (schemaOfMembers_keyword_iff hname).mp h
      exact (schemaOfMembers_keyword_iff hname).mpr
        ⟨hk, t, putRead_collapsed hv ht, ih hmembers h⟩

/-- A repeated member is not one of a keyword, so it does not matter which one is kept. -/
theorem schemaOfMembers_ofList (h : schemaOfMembers members seen s = .ok s') :
    schemaOfMembers (Assoc.ofList members) seen s = .ok s' := by
  rw [schemaOfMembers_filter, Assoc.filter_ofList (nodup_of_schemaOfMembers h).1,
    ← schemaOfMembers_filter]
  exact h

end

theorem typeName_collapsed {v : Value} {type : TypeName} (h : TypeName.ofValue? v = some type) :
    TypeName.ofValue? v.collapsed = some type := by
  unfold TypeName.ofValue? at h
  split at h
  · simpa [collapsed, TypeName.ofValue?] using h
  · simpa [collapsed, collapsedMembers, Assoc.ofList, Assoc.update, Assoc.insert,
      TypeName.ofValue?] using h
  · cases h

theorem typeSet_collapsed {v : Value} {types : TypeSet} (h : TypeSet.ofValue? v = some types) :
    TypeSet.ofValue? v.collapsed = some types := by
  cases v with
  | null | bool | number | string => exact h
  | array items =>
    have hitems : ∀ {items : List Value} {names : List TypeName},
        items.mapM TypeName.ofValue? = some names →
          (items.map collapsed).mapM TypeName.ofValue? = some names := by
      intro items
      induction items with
      | nil => exact fun h => h
      | cons item items ih =>
        intro names h
        obtain ⟨type, htype, rest, hrest, rfl⟩ : ∃ type, TypeName.ofValue? item = some type ∧
            ∃ rest, items.mapM TypeName.ofValue? = some rest ∧ type :: rest = names := by
          simpa [List.mapM_cons, Option.bind_eq_some_iff] using h
        simp [List.mapM_cons, typeName_collapsed htype, ih hrest]
    obtain ⟨names, hnames, rfl⟩ := Option.map_eq_some_iff.mp h
    rw [collapsed, collapsedItems_eq, TypeSet.ofValue?, hitems hnames, Option.map_some]
  | object members =>
    obtain ⟨type, htype, rfl⟩ := Option.map_eq_some_iff.mp h
    have hobject := typeName_collapsed htype
    rw [collapsed] at hobject ⊢
    simp [TypeSet.ofValue?, hobject]

theorem inForm_types_iff {v : Value} {types : TypeSet} :
    v.inForm .types = .ok types ↔ TypeSet.ofValue? v = some types := by
  rw [inForm]
  cases TypeSet.ofValue? v <;> simp

/-- Where a value in brackets is read in place of a choice, it is a schema. -/
theorem inForm_additional_iff {v : Value} {a : Additional Schema}
    (hv : ∀ yes, v ≠ .bool yes) :
    v.inForm .additional = .ok a ↔ ∃ s, v.inForm .schema = .ok s ∧ a = .schema s := by
  cases v with
  | bool yes => exact absurd rfl (hv yes)
  | null | number | string => simp [inForm]
  | array items =>
    rw [inForm, inForm]
    cases schemaOfPositions items items.length 0 Keyword.all {} <;> simp [eq_comm]
  | object members =>
    rw [inForm, inForm]
    cases schemaOfMembers members [] {} <;> simp [eq_comm]

theorem schema_collapsed {v : Value} (ih : ∀ w ∈ v.children, w.KeepsForm) {s : Schema}
    (h : v.inForm .schema = .ok s) : v.collapsed.inForm .schema = .ok s := by
  cases v with
  | null | bool | number | string => exact h
  | array items =>
    rw [collapsed, collapsedItems_eq]
    exact schemaOfPositions_collapsed ih h
  | object members =>
    have hmembers : ∀ m ∈ members, m.2.KeepsForm := fun m hm =>
      ih m.2 (List.mem_map.mpr ⟨m, hm, rfl⟩)
    rw [collapsed, collapsedMembers_eq, inForm_object]
    exact schemaOfMembers_ofList (schemaOfMembers_map_collapsed hmembers h)

theorem list_collapsed {v : Value} (ih : ∀ w ∈ v.children, w.KeepsForm) {item : Form}
    {xs : List item.Carrier} (h : v.inForm (.listOf item) = .ok xs) :
    v.collapsed.inForm (.listOf item) = .ok xs := by
  cases v with
  | null | bool | number | string | object => exact absurd h (by simp [inForm])
  | array items =>
    rw [inForm_listOf, itemsInForm_eq_ok_iff] at h
    rw [collapsed, collapsedItems_eq, inForm_listOf, itemsInForm_eq_ok_iff,
      List.forall₂_map_left_iff]
    exact forall₂_imp_of_mem (fun w hw x hx => ih w hw item x hx) h

theorem map_collapsed {v : Value} (ih : ∀ w ∈ v.children, w.KeepsForm) {entry : Form}
    {xs : List (String × entry.Carrier)} (h : v.inForm (.mapOf entry) = .ok xs) :
    v.collapsed.inForm (.mapOf entry) = .ok xs := by
  cases v with
  | null | bool | number | string | array => exact absurd h (by simp [inForm])
  | object members =>
    rw [inForm_mapOf] at h
    cases hentries : entriesInForm entry members with
    | error e =>
      rw [hentries] at h
      cases h
    | ok entries =>
      rw [hentries] at h
      obtain rfl := Except.ok.inj h
      have hread := entriesInForm_eq_ok_iff.mp hentries
      have hcollapsed : List.Forall₂ (fun m e => m.1 = e.1 ∧ m.2.inForm entry = .ok e.2)
          (members.map fun m => (m.1, m.2.collapsed)) entries := by
        rw [List.forall₂_map_left_iff]
        exact forall₂_imp_of_mem
          (fun m hm e he => ⟨he.1, ih m.2 (List.mem_map.mpr ⟨m, hm, rfl⟩) entry e.2 he.2⟩) hread
      have hlast := Assoc.forall₂_ofList (fun _ _ he => he.1) hcollapsed
      rw [collapsed, collapsedMembers_eq, inForm_mapOf, entriesInForm_eq_ok_iff.mpr hlast]
      exact congrArg Except.ok (Assoc.ofList_of_nodup (Assoc.nodup_keys_ofList entries))

/-- **What is read of a value is read of the collapsed one.** -/
theorem inForm_collapsed (v : Value) : v.KeepsForm := by
  induction v using induction with
  | h v ih =>
    intro form x h
    cases form with
    | text | count => cases v <;> exact h
    | value => rwa [inForm_value, collapsed_collapsed, ← inForm_value]
    | types => exact inForm_types_iff.mpr (typeSet_collapsed (inForm_types_iff.mp h))
    | schema => exact schema_collapsed ih h
    | additional =>
      by_cases hv : ∃ yes, v = .bool yes
      · obtain ⟨yes, rfl⟩ := hv
        exact h
      · have hbool : ∀ yes, v ≠ .bool yes := fun yes heq => hv ⟨yes, heq⟩
        have hbool' : ∀ yes, v.collapsed ≠ .bool yes := by cases v <;> simp_all [collapsed]
        obtain ⟨s, hs, rfl⟩ := (inForm_additional_iff hbool).mp h
        exact (inForm_additional_iff hbool').mpr ⟨s, schema_collapsed ih hs, rfl⟩
    | listOf item => exact list_collapsed ih h
    | mapOf entry => exact map_collapsed ih h

end Json.Value

end SchemaGrammar
