import SchemaGrammar.Proofs.Scoping
import SchemaGrammar.Schema.OfValue
import SchemaGrammar.Schema.ToValue

/-!
# Schemas that are stored

A schema is written as an object with one member for each keyword that it has, and read back keyword
by keyword. Both directions follow the forms of keywords: `Form.write` says how a value of a form is
written, beside `inForm`, which says how it is read. A schema is nothing but the values of its
keywords, so that it comes back is a matter of one keyword at a time.

Writing tells absence from everything else, a constant `null` included. What is asked of a schema is
what holds of all that are kept in memory: names in a map are distinct, and counts have their size.

## Main definitions

* `Schema.get?`: the value of a keyword.
* `Form.write`: a value of a form, written.
* `Schema.isStorable`: names are distinct and counts are not too large.

## Main results

* `Schema.toValue_eq`: a schema is written keyword by keyword.
* `ofValue_toValue`: what was written is read back, in the same order.
-/

namespace SchemaGrammar

open Json (Value ReadError)

/-! ## Maps without repeated names -/

namespace Assoc

variable {α : Type}

theorem update_of_nodup {older newer : Assoc α} (h : (keys (older ++ newer)).Nodup) :
    update older newer = older ++ newer := by
  induction newer generalizing older with
  | nil => simp [update]
  | cons e newer ih =>
    have hnew : e.1 ∉ keys older := by
      simp only [keys, List.map_append, List.map_cons] at h
      exact fun hmem => (List.disjoint_of_nodup_append h) hmem List.mem_cons_self
    have happend : (keys ((older ++ [e]) ++ newer)).Nodup := by
      rwa [List.append_assoc, List.singleton_append]
    rw [update_cons, insert_of_notMem hnew, ih happend, List.append_assoc, List.singleton_append]

theorem ofList_of_nodup {entries : Assoc α} (h : (keys entries).Nodup) : ofList entries = entries :=
  update_of_nodup h

end Assoc

namespace Json.Value

mutual

/-- Whether no object has two members of one name, at any depth. -/
def isDistinct : Value → Bool
  | .array items => itemsDistinct items
  | .object members => decide (Assoc.keys members).Nodup && membersDistinct members
  | _ => true

/-- Whether this holds of all items. -/
def itemsDistinct : List Value → Bool
  | [] => true
  | item :: items => isDistinct item && itemsDistinct items

/-- Whether this holds of all members. -/
def membersDistinct : List (String × Value) → Bool
  | [] => true
  | (_, value) :: members => isDistinct value && membersDistinct members

end

mutual

theorem collapsed_of_isDistinct : ∀ v : Value, v.isDistinct = true → v.collapsed = v
  | .array items, h => by
    rw [isDistinct] at h
    rw [collapsed, collapsedItems_of_distinct items h]
  | .object members, h => by
    rw [isDistinct, Bool.and_eq_true, decide_eq_true_iff] at h
    rw [collapsed, collapsedMembers_of_distinct members h.2, Assoc.ofList_of_nodup h.1]
  | .null, _ | .bool _, _ | .number _, _ | .string _, _ => by simp [collapsed]

theorem collapsedItems_of_distinct :
    ∀ items : List Value, itemsDistinct items = true → collapsedItems items = items
  | [], _ => rfl
  | item :: items, h => by
    rw [itemsDistinct, Bool.and_eq_true] at h
    rw [collapsedItems, collapsed_of_isDistinct item h.1, collapsedItems_of_distinct items h.2]

theorem collapsedMembers_of_distinct : ∀ members : List (String × Value),
    membersDistinct members = true → collapsedMembers members = members
  | [], _ => rfl
  | (_, value) :: members, h => by
    rw [membersDistinct, Bool.and_eq_true] at h
    rw [collapsedMembers, collapsed_of_isDistinct value h.1,
      collapsedMembers_of_distinct members h.2]

end

/-! ### One value in one form -/

section

variable (form : Form) (members : List (String × Value))

theorem inForm_text (text : String) : (Value.string text).inForm .text = .ok text := rfl

theorem inForm_count (n : Number) :
    (Value.number n).inForm .count = (countOf .count maxCount n).mapError Problem.here := rfl

theorem inForm_value (v : Value) : v.inForm .value = .ok v.collapsed := by
  cases v <;> rfl

theorem inForm_types {v : Value} {types : TypeSet} (h : TypeSet.ofValue? v = some types) :
    v.inForm .types = .ok types := by
  rw [inForm, h]

theorem inForm_allowed (yes : Bool) : (Value.bool yes).inForm .additional = .ok (.allowed yes) :=
  rfl

theorem inForm_additional {s : Schema} (h : (Value.object members).inForm .schema = .ok s) :
    (Value.object members).inForm .additional = .ok (.schema s) := by
  have hmembers : schemaOfMembers members [] {} = .ok s := h
  rw [inForm, hmembers]

theorem inForm_object :
    (Value.object members).inForm .schema = schemaOfMembers members [] {} := rfl

theorem inForm_listOf (items : List Value) :
    (Value.array items).inForm (.listOf form) = itemsInForm form items 0 := rfl

theorem inForm_mapOf :
    (Value.object members).inForm (.mapOf form) = (entriesInForm form members).map Assoc.ofList :=
  rfl

theorem itemsInForm_cons (value : Value) (values : List Value) (index : Nat) :
    itemsInForm form (value :: values) index = (do
      let item ← (inForm form value).mapError (·.under (.index index))
      let items ← itemsInForm form values (index + 1)
      return item :: items) := rfl

theorem entriesInForm_cons (name : String) (value : Value) :
    entriesInForm form ((name, value) :: members) = (do
      let entry ← (inForm form value).mapError (·.under (.key name))
      let entries ← entriesInForm form members
      return (name, entry) :: entries) := rfl

end

end Json.Value

/-! ## Schemas by keyword -/

namespace Schema

/-- The value of a keyword, if the schema has it. -/
def get? (s : Schema) : (k : Keyword) → Option k.form.Carrier
  | .type => s.types
  | .properties => s.properties
  | .required => s.required
  | .additionalProperties => s.additional
  | .items => s.items
  | .prefixItems => s.prefixItems
  | .minItems => s.minItems
  | .maxItems => s.maxItems
  | .minLength => s.minLength
  | .maxLength => s.maxLength
  | .format => s.format
  | .enumeration => s.enumeration
  | .constant => s.constant
  | .oneOf => s.oneOf
  | .anyOf => s.anyOf
  | .definitions => s.definitions
  | .reference => s.reference
  | .description => s.description

variable {s t : Schema} {k : Keyword}

/-- A schema is the values of its keywords. -/
theorem ext_get? (h : ∀ k, s.get? k = t.get? k) : s = t := by
  cases s
  cases t
  rw [mk.injEq]
  exact ⟨h .type, h .properties, h .required, h .additionalProperties, h .items, h .prefixItems,
    h .minItems, h .maxItems, h .minLength, h .maxLength, h .format, h .enumeration, h .constant,
    h .oneOf, h .anyOf, h .definitions, h .reference, h .description⟩

@[simp] theorem get?_empty (k : Keyword) : ({} : Schema).get? k = none := by
  cases k <;> rfl

@[simp] theorem get?_put_self (s : Schema) (k : Keyword) (x : k.form.Carrier) :
    (s.put k x).get? k = some x := by
  cases k <;> rfl

theorem get?_put_of_ne {other : Keyword} (h : other ≠ k) (s : Schema) (x : k.form.Carrier) :
    (s.put k x).get? other = s.get? other := by
  cases k <;> cases other <;> try rfl
  all_goals exact absurd rfl h

end Schema

theorem Keyword.mem_all (k : Keyword) : k ∈ Keyword.all := by
  cases k <;> decide

theorem Keyword.nodup_all : Keyword.all.Nodup := by
  decide

/-- A value of a form, written. -/
def Form.write : (form : Form) → form.Carrier → Value
  | .text, x => .string x
  | .count, x => countValue x
  | .value, x => x
  | .types, x => x.toValue
  | .additional, .allowed yes => .bool yes
  | .additional, .schema fragment => fragment.toValue
  | .schema, x => x.toValue
  | .listOf item, x => .array (x.map item.write)
  | .mapOf entry, x => .object (x.map fun e => (e.1, entry.write e.2))

namespace Form

theorem write_text : Form.text.write = Value.string := rfl

theorem write_count : Form.count.write = countValue := rfl

theorem write_value : Form.value.write = id := rfl

theorem write_types : Form.types.write = TypeSet.toValue := rfl

theorem write_listOf (item : Form) :
    (listOf item).write = fun x => .array (x.map item.write) := rfl

end Form

namespace Schema

theorem fragmentValue_eq (s : Option Schema) : fragmentValue s = s.map Form.schema.write := by
  cases s <;> rw [fragmentValue] <;> rfl

theorem additionalValue_eq (a : Option (Additional Schema)) :
    additionalValue a = a.map Form.additional.write := by
  rcases a with _ | _ | _ <;> rw [additionalValue] <;> rfl

theorem fragmentsValue_eq (list : Option (List Schema)) :
    fragmentsValue list = list.map (Form.listOf .schema).write := by
  have hvalues : ∀ list, fragmentValues list = list.map Form.schema.write := by
    intro list
    induction list with
    | nil => rw [fragmentValues, List.map_nil]
    | cons s list ih =>
      rw [fragmentValues, ih]
      rfl
  cases list with
  | none => rw [fragmentsValue, Option.map_none]
  | some list =>
    rw [fragmentsValue, hvalues]
    rfl

theorem entriesValue_eq (entries : Option (List (String × Schema))) :
    entriesValue entries = entries.map (Form.mapOf .schema).write := by
  have hvalues : ∀ entries, entryValues entries =
      entries.map fun e => (e.1, Form.schema.write e.2) := by
    intro entries
    induction entries with
    | nil => rw [entryValues, List.map_nil]
    | cons e entries ih =>
      rw [entryValues, ih]
      rfl
  cases entries with
  | none => rw [entriesValue, Option.map_none]
  | some entries =>
    rw [entriesValue, hvalues]
    rfl

/-- The members that are written for a keyword: one, or none if the schema does not have it. -/
def membersOf (s : Schema) (k : Keyword) : List (String × Value) :=
  optionalMember k.name ((s.get? k).map k.form.write)

/-- **A schema is written keyword by keyword**, in the order of positions. -/
theorem toValue_eq (s : Schema) : s.toValue = .object (Keyword.all.flatMap s.membersOf) := by
  obtain ⟨types, properties, required, additional, items, prefixItems, minItems, maxItems,
    minLength, maxLength, format, enumeration, constant, oneOf, anyOf, definitions, reference,
    description⟩ := s
  simp only [toValue, entriesValue_eq, additionalValue_eq, fragmentValue_eq, fragmentsValue_eq,
    Keyword.all, List.flatMap_cons, List.flatMap_nil, membersOf, get?, Keyword.name, Keyword.form]
  simp only [Form.write_text, Form.write_count, Form.write_value, Form.write_types,
    Form.write_listOf, List.map_id, Option.map_id, id_eq, List.append_assoc, List.append_nil]

end Schema

/-! ## One form at a time -/

theorem TypeSet.ofValue?_toValue (types : TypeSet) : ofValue? types.toValue = some types := by
  have hname : ∀ type : TypeName, TypeName.ofValue? (.string type.name) = some type :=
    fun type => by cases type <;> decide
  cases types with
  | one type => simp [toValue, ofValue?, hname]
  | many types =>
    have hnames : (types.map fun type => Value.string type.name).mapM TypeName.ofValue? =
        some types := by
      induction types with
      | nil => rfl
      | cons type types ih => simp [hname, ih]
    rw [toValue, ofValue?, hnames, Option.map_some]

/-- What is written of a value of this form is read as that value. -/
def Form.Returns (form : Form) (x : form.Carrier) : Prop :=
  (form.write x).inForm form = .ok x

namespace Form

theorem returns_text (x : String) : text.Returns x :=
  Value.inForm_text x

theorem returns_count {x : Nat} (h : x ≤ maxCount) : count.Returns x := by
  have hcount : countOf .count maxCount (.integer x) = .ok x := by
    simp [countOf, h]
  rw [Returns, write_count, countValue, Value.inForm_count, hcount]
  rfl

theorem returns_value {x : Value} (h : x.isDistinct = true) : value.Returns x := by
  rw [Returns, write_value, Value.inForm_value, id_eq, Value.collapsed_of_isDistinct x h]

theorem returns_types (x : TypeSet) : types.Returns x :=
  Value.inForm_types (TypeSet.ofValue?_toValue x)

theorem returns_allowed (yes : Bool) : additional.Returns (.allowed yes) :=
  Value.inForm_allowed yes

theorem returns_additional {fragment : Schema} (h : schema.Returns fragment) :
    additional.Returns (.schema fragment) := by
  have hwrite : additional.write (.schema fragment) = schema.write fragment := rfl
  have hobject : schema.write fragment = .object (Keyword.all.flatMap fragment.membersOf) :=
    fragment.toValue_eq
  rw [Returns, hobject] at h
  rw [Returns, hwrite, hobject]
  exact Value.inForm_additional _ h

theorem returns_listOf {item : Form} {x : List item.Carrier} (h : ∀ e ∈ x, item.Returns e) :
    (listOf item).Returns x := by
  have hitems : ∀ index, Value.itemsInForm item (x.map item.write) index = .ok x := by
    induction x with
    | nil => exact fun _ => rfl
    | cons e x ih =>
      intro index
      rw [List.map_cons, Value.itemsInForm_cons, h e List.mem_cons_self,
        ih fun e he => h e (List.mem_cons_of_mem _ he)]
      rfl
  exact hitems 0

/-- A map comes back if its names are distinct: of a repeated name only the last entry would. -/
theorem returns_mapOf {entry : Form} {x : List (String × entry.Carrier)}
    (hnames : (Assoc.keys x).Nodup) (h : ∀ e ∈ x, entry.Returns e.2) :
    (mapOf entry).Returns x := by
  have hentries : Value.entriesInForm entry (x.map fun e => (e.1, entry.write e.2)) = .ok x := by
    clear hnames
    induction x with
    | nil => rfl
    | cons e x ih =>
      rw [List.map_cons, Value.entriesInForm_cons, h e List.mem_cons_self,
        ih fun e he => h e (List.mem_cons_of_mem _ he)]
      rfl
  have hmap : (mapOf entry).write x = .object (x.map fun e => (e.1, entry.write e.2)) := rfl
  rw [Returns, hmap, Value.inForm_mapOf, hentries]
  exact congrArg Except.ok (Assoc.ofList_of_nodup hnames)

/-- Only a free value is ever written as `null`. -/
theorem kind_write_ne_null {form : Form} (h : form ≠ .value) (x : form.Carrier) :
    (form.write x).kind ≠ .null := by
  cases form with
  | value => exact absurd rfl h
  | text | count | listOf _ | mapOf _ => simp [write, countValue, Value.kind]
  | types => cases x <;> simp [write, TypeSet.toValue, Value.kind]
  | schema => simp [write, Schema.toValue_eq, Value.kind]
  | additional => cases x <;> simp [write, Schema.toValue_eq, Value.kind]

end Form

/-! ## Keyword by keyword -/

namespace Schema

variable {s : Schema}

/-- Whether counts are not too large and free values have distinct names, in all fragments. -/
def holdsPlainValues : Schema → Bool :=
  fold fun s p =>
    [s.minItems, s.maxItems, s.minLength, s.maxLength].all (·.all fun n => decide (n ≤ maxCount)) &&
      (s.enumeration.getD []).all Value.isDistinct && s.constant.all Value.isDistinct && p.all id

/-- Whether a schema is one that can be kept: names in a map are distinct, in fragments and in free
values, and counts are not too large. -/
def isStorable (s : Schema) : Bool := s.isDistinct && s.holdsPlainValues

theorem isStorable_iff : s.isStorable = true ↔
    (s.declared.keys.Nodup ∧ s.ownDefinitions.keys.Nodup) ∧
      (∀ count ∈ [s.minItems, s.maxItems, s.minLength, s.maxLength], ∀ n ∈ count, n ≤ maxCount) ∧
      (∀ v ∈ s.enumeration.getD [], v.isDistinct = true) ∧
      (∀ v ∈ s.constant, v.isDistinct = true) ∧ ∀ e ∈ s.children, e.2.isStorable = true := by
  have hvalues : s.holdsPlainValues = true ↔
      (∀ count ∈ [s.minItems, s.maxItems, s.minLength, s.maxLength], ∀ n ∈ count, n ≤ maxCount) ∧
        (∀ v ∈ s.enumeration.getD [], v.isDistinct = true) ∧
        (∀ v ∈ s.constant, v.isDistinct = true) ∧
        ∀ e ∈ s.children, e.2.holdsPlainValues = true := by
    rw [holdsPlainValues, fold_eq, ← holdsPlainValues, all_parts_map]
    simp only [Bool.and_eq_true, List.all_eq_true, Option.all_eq_true, decide_eq_true_eq, id_eq,
      Option.mem_def, and_assoc]
  have hchildren : (∀ e ∈ s.children, e.2.isStorable = true) ↔
      (∀ e ∈ s.children, e.2.isDistinct = true) ∧
        ∀ e ∈ s.children, e.2.holdsPlainValues = true := by
    simp only [isStorable, Bool.and_eq_true, imp_and, forall_and]
  rw [hchildren, isStorable, Bool.and_eq_true, isDistinct_iff, hvalues]
  tauto

/-- If the fragments of a schema come back, so does the value of each of its keywords. -/
theorem returns_of_get? (hs : s.isStorable = true)
    (ih : ∀ e ∈ s.children, Form.schema.Returns e.2) {k : Keyword} {x : k.form.Carrier}
    (h : s.get? k = some x) : k.form.Returns x := by
  obtain ⟨⟨hproperties, hdefinitions⟩, hcounts, henum, hconst, -⟩ := isStorable_iff.mp hs
  have hcount : ∀ {count : Option Nat} {n}, count ∈ [s.minItems, s.maxItems, s.minLength,
      s.maxLength] → count = some n → Form.count.Returns n :=
    fun hmem hn => Form.returns_count (hcounts _ hmem _ hn)
  cases k with
  | type => exact Form.returns_types x
  | format | reference | description => exact Form.returns_text x
  | required => exact Form.returns_listOf fun e _ => Form.returns_text e
  | minItems | maxItems | minLength | maxLength => exact hcount (by simp [get?]) h
  | constant => exact Form.returns_value (hconst _ h)
  | enumeration =>
    have hx : s.enumeration = some x := h
    exact Form.returns_listOf fun e he => Form.returns_value (henum e (by rwa [hx]))
  | additionalProperties =>
    cases x with
    | allowed yes => exact Form.returns_allowed yes
    | schema fragment => exact Form.returns_additional (ih _ (additional_mem_children h))
  | items => exact ih _ (items_mem_children h)
  | prefixItems =>
    have hx : s.prefixItems = some x := h
    refine Form.returns_listOf fun e he => ?_
    obtain ⟨i, hi⟩ := exists_mem_zipIdx he
    exact ih _ (leading_mem_children (i := i) (by rwa [hx]))
  | oneOf =>
    refine Form.returns_listOf fun e he => ?_
    obtain ⟨i, hi⟩ := exists_mem_zipIdx he
    exact ih _ (oneOf_mem_children h hi)
  | anyOf =>
    refine Form.returns_listOf fun e he => ?_
    obtain ⟨i, hi⟩ := exists_mem_zipIdx he
    exact ih _ (anyOf_mem_children h hi)
  | properties =>
    have hx : s.declared = x := congrArg (·.getD []) h
    subst hx
    exact Form.returns_mapOf hproperties fun e he => ih _ (property_mem_children he)
  | definitions =>
    have hx : s.ownDefinitions = x := congrArg (·.getD []) h
    subst hx
    exact Form.returns_mapOf hdefinitions fun e he => ih _ (definition_mem_children he)

/-- Reading a keyword's value as it was written sets the keyword: a `null` is written only for a
constant, where it does not mean absence. -/
theorem putRead_write (s : Schema) {k : Keyword} {x : k.form.Carrier} (h : k.form.Returns x) :
    s.putRead k (k.form.write x) ((k.form.write x).inForm k.form) = .ok (s.put k x) := by
  have hnull : (k.nullable && decide ((k.form.write x).kind = .null)) = false := by
    by_cases hk : k = .constant
    · simp [Keyword.nullable, hk]
    · have hform : k.form ≠ .value := by
        revert hk
        cases k <;> decide
      simp [Form.kind_write_ne_null hform x]
  rw [putRead, hnull, h]
  rfl

/-- What a run over the members of some keywords puts into a schema. -/
theorem schemaOfMembers_flatMap_membersOf
    (h : ∀ k x, s.get? k = some x → k.form.Returns x) {keywords : List Keyword}
    (hk : keywords.Nodup) {seen : List Keyword} (hseen : ∀ k ∈ keywords, k ∉ seen) (t : Schema) :
    ∃ t', Value.schemaOfMembers (keywords.flatMap s.membersOf) seen t = .ok t' ∧
      ∀ k, t'.get? k = if k ∈ keywords then (s.get? k).or (t.get? k) else t.get? k := by
  induction keywords generalizing seen t with
  | nil => exact ⟨t, rfl, fun k => by simp⟩
  | cons k keywords ih =>
    obtain ⟨hnew, hk⟩ := List.nodup_cons.mp hk
    have htail : ∀ other ∈ keywords, other ≠ k := fun other hother heq => hnew (heq ▸ hother)
    cases hx : s.get? k with
    | none =>
      obtain ⟨t', ht', hget⟩ := ih hk (fun other ho => hseen other (List.mem_cons_of_mem _ ho)) t
      refine ⟨t', by simpa [membersOf, hx, optionalMember] using ht', fun other => ?_⟩
      by_cases ho : other = k
      · subst ho
        simp [hget, hnew, hx]
      · simp [hget, ho]
    | some x =>
      have hseen' : ∀ other ∈ keywords, other ∉ k :: seen := fun other ho hmem =>
        (List.mem_cons.mp hmem).elim (htail other ho) (hseen other (List.mem_cons_of_mem _ ho))
      obtain ⟨t', ht', hget⟩ := ih hk hseen' (t.put k x)
      have hmembers : (k :: keywords).flatMap s.membersOf =
          (k.name, k.form.write x) :: keywords.flatMap s.membersOf := by
        simp [membersOf, hx, optionalMember]
      refine ⟨t', ?_, fun other => ?_⟩
      · rw [hmembers, Value.schemaOfMembers, Keyword.ofName?_name]
        simp only [hseen k List.mem_cons_self, if_false, putRead_write t (h k x hx)]
        exact ht'
      · by_cases ho : other = k
        · subst ho
          simp [hget, hnew, hx]
        · simp [hget, ho, get?_put_of_ne ho]

/-- A schema whose keywords come back comes back. -/
theorem returns_of_keywords (h : ∀ k x, s.get? k = some x → k.form.Returns x) :
    Form.schema.Returns s := by
  obtain ⟨t, ht, hget⟩ := schemaOfMembers_flatMap_membersOf h Keyword.nodup_all
    (fun k _ => List.not_mem_nil) {}
  have heq : t = s := ext_get? fun k => by rw [hget, if_pos k.mem_all, get?_empty, Option.or_none]
  have hwrite : Form.schema.write s = .object (Keyword.all.flatMap s.membersOf) := toValue_eq s
  rw [Form.Returns, hwrite, Value.inForm_object, ht, heq]

end Schema

/-- **Storing a schema loses nothing**: the value that is written for it is read as the same schema,
with the entries of every map in the same order. -/
theorem ofValue_toValue {s : Schema} (h : s.isStorable = true) :
    Schema.ofValue s.toValue = .ok s := by
  suffices hreturns : Form.schema.Returns s from hreturns
  induction s using Schema.induction with
  | h s ih =>
    have hchildren := (Schema.isStorable_iff.mp h).2.2.2.2
    exact Schema.returns_of_keywords fun k x hx =>
      Schema.returns_of_get? h (fun e he => ih e he (hchildren e he)) hx

/-- A schema with fragments in every place, a constant `null` and the largest count. -/
def storedSchema : Schema where
  types := some (.many [.object, .null])
  properties := some
    [("z", { constant := some .null }),
     ("a", { types := some (.one .array), items := some { reference := some "#/$defs/z" },
             prefixItems := some [{ additional := some (.allowed false) }, {}],
             maxItems := some maxCount })]
  required := some ["a"]
  additional := some (.schema
    { enumeration := some [.null, .object [("y", .array [.bool true]), ("x", .object [])]] })
  oneOf := some [{ format := some "uuid", minLength := some 0 }]
  anyOf := some []
  definitions := some [("z", { description := some "" }), ("a", { definitions := some [] })]

theorem ofValue_toValue_storedSchema :
    storedSchema.isStorable = true ∧ Schema.ofValue storedSchema.toValue = .ok storedSchema :=
  have h : storedSchema.isStorable = true := by decide
  ⟨h, ofValue_toValue h⟩

end SchemaGrammar
