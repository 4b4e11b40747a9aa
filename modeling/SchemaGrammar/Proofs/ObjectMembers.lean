import SchemaGrammar.Proofs.PropertyOrder
import SchemaGrammar.Proofs.ReadingObjects
import SchemaGrammar.Proofs.TrailingLineBreaks

/-!
# Objects, member by member

A grammar writes an object as a row of members: those of declared properties first, in order, then
any number of additional ones. Reading merges members of one name, and checking sees what is left.
As additional names are any strings, an additional member may take the place of a declared one.

Suppose that the value of each member, taken alone, is a JSON text and fits the fragment it was
written for. Then reading and checking the whole text succeeds exactly if three things hold. No
value has as many brackets open as a text may have, since the object adds one. The additional names
can be read. And where an additional name is that of a declared property, its last value also fits
the fragment of the property. Nothing else can go wrong: all required members are there, and
additional ones are allowed.

## Main definitions

* `validatePart`: checks a value against a part of a schema.
* `WrittenAs`: how the text of an object is put together from its members.

## Main results

* `exists_writtenAs`: every word of an object's shape is put together in this way.
* `Schema.admitsAs_merged_iff`: what is asked of members after they are merged.
* `parse_object_iff`: when an object is accepted whose members are, taken alone.
-/

namespace SchemaGrammar

open Json Grammar
open scoped Computability

/-! ## Merged members -/

namespace Assoc

variable {α : Type}

/-- The last entry of a name wins. -/
theorem get?_update_eq_or (older newer : Assoc α) (key : String) :
    get? key (update older newer) = (get? key (ofList newer)).or (get? key older) := by
  induction newer generalizing older with
  | nil => rfl
  | cons e newer ih =>
    have hone : get? key (ofList (e :: newer)) =
        (get? key (ofList newer)).or (get? key (insert e.1 e.2 [])) := ih _
    rw [update_cons, ih, hone, get?_insert, get?_insert, Option.or_assoc]
    split_ifs <;> rfl

theorem get?_ofList_append (first rest : Assoc α) (key : String) :
    get? key (ofList (first ++ rest)) = (get? key (ofList rest)).or (get? key (ofList first)) := by
  rw [← get?_update_eq_or]
  exact congrArg (get? key) List.foldl_append

theorem mem_of_mem_ofList {entries : Assoc α} {e : String × α} (h : e ∈ ofList entries) :
    e ∈ entries :=
  (mem_of_mem_update h).resolve_right List.not_mem_nil

theorem mem_keys_ofList {entries : Assoc α} {key : String} (h : key ∈ keys entries) :
    key ∈ keys (ofList entries) := by
  induction entries using List.reverseRecOn with
  | nil => exact h
  | append_singleton entries e ih =>
    rw [mem_keys_iff, get?_ofList_append]
    by_cases hkey : key = e.1
    · exact ⟨e.2, by rw [hkey]; simp [ofList, update, insert, get?]⟩
    · have hmem : key ∈ keys entries := by simpa [keys, hkey] using h
      obtain ⟨entry, hget⟩ := mem_keys_iff.mp (ih hmem)
      exact ⟨entry, by rw [hget]; simp [ofList, update, insert, get?, Ne.symm hkey]⟩

end Assoc

theorem Chosen.mem_of_required {α : Type*} {required : α → Bool} {all chosen : List α}
    (h : Chosen required all chosen) {a : α} (ha : a ∈ all) (hr : required a = true) :
    a ∈ chosen := by
  induction h with
  | nil => exact ha
  | take _ ih =>
    rcases List.mem_cons.mp ha with rfl | ha
    · exact List.mem_cons_self
    · exact List.mem_cons_of_mem _ (ih ha)
  | skip hb _ ih =>
    rcases List.mem_cons.mp ha with rfl | ha
    · simp [hr] at hb
    · exact ih ha

section

variable {sub : Schema → Value → Prop} {s : Schema} {declared : List ((String × Schema) × Value)}
  {more : List (String × Value)}

/-- **What is asked of members after they are merged.** If declared members are chosen as they have
to be, and all members fit what they were written for, it is left to ask that additional members fit
the declared properties whose names they have. -/
theorem Schema.admitsAs_merged_iff (hkeys : s.declared.keys.Nodup)
    (hchosen : Chosen (fun e => s.isRequired e.1) s.declared (declared.map Prod.fst))
    (hdeclared : ∀ m ∈ declared, sub m.1.2 m.2)
    (hmore : ∀ m ∈ more, s.additional.any Additional.isOpen = true ∧
      ∀ c, s.additional = some (.schema c) → sub c m.2) :
    s.AdmitsAs sub .object
        (.object (Assoc.ofList (declared.map (fun m => (m.1.1, m.2)) ++ more))) ↔
      ∀ e ∈ s.declared, ∀ v, Assoc.get? e.1 (Assoc.ofList more) = some v → sub e.2 v := by
  have hmem : ∀ m ∈ declared, m.1 ∈ s.declared := fun m hm =>
    hchosen.subset (List.mem_map_of_mem hm)
  constructor
  · rintro ⟨-, -, hvalues⟩ e he v hv
    refine hvalues e he v ?_
    rw [Assoc.get?_ofList_append, hv]
    rfl
  · intro hmerged
    refine ⟨fun m hm hundeclared => ?_, fun key hkey hrequired => ?_, fun e he v hv => ?_⟩
    · rcases List.mem_append.mp (Assoc.mem_of_mem_ofList hm) with hm | hm
      · obtain ⟨d, hd, rfl⟩ := List.mem_map.mp hm
        have hcontains : s.declared.contains d.1.1 = true :=
          Assoc.contains_iff.mpr (List.mem_map_of_mem (hmem d hd))
        rw [hcontains] at hundeclared
        cases hundeclared
      · exact hmore m hm
    · obtain ⟨e, he, rfl⟩ := List.mem_map.mp hkey
      obtain ⟨d, hd, rfl⟩ := List.mem_map.mp (hchosen.mem_of_required he hrequired)
      refine Assoc.contains_iff.mpr (Assoc.mem_keys_ofList ?_)
      exact List.mem_map.mpr ⟨_, List.mem_append_left _ (List.mem_map.mpr ⟨d, hd, rfl⟩), rfl⟩
    · rw [Assoc.get?_ofList_append] at hv
      cases hextra : Assoc.get? e.1 (Assoc.ofList more) with
      | some x =>
        rw [hextra] at hv
        exact hmerged e he v (hextra.trans hv)
      | none =>
        rw [hextra] at hv
        obtain ⟨d, hd, heq⟩ := List.mem_map.mp (Assoc.mem_of_mem_ofList (Assoc.mem_of_get? hv))
        obtain ⟨hname, rfl⟩ := Prod.mk.inj heq
        -- Names are declared once, so the member was written for this property.
        have hsame : e = d.1 := by
          have hget := Assoc.get?_of_mem hkeys he
          have hget' := Assoc.get?_of_mem hkeys (hmem d hd)
          rw [hname, hget] at hget'
          exact Prod.ext hname.symm (Option.some.inj hget')
        rw [hsame]
        exact hdeclared d hd

end

/-! ## The words of an object's shape -/

theorem forall₂_append_left_iff {α β : Type*} {R : α → β → Prop} {l l' : List α} {u : List β} :
    List.Forall₂ R (l ++ l') u ↔
      ∃ v v', List.Forall₂ R l v ∧ List.Forall₂ R l' v' ∧ u = v ++ v' := by
  constructor
  · intro h
    exact ⟨_, _, (List.forall₂_take_append _ _ _ h.flip).flip,
      (List.forall₂_drop_append _ _ _ h.flip).flip, (List.take_append_drop _ u).symm⟩
  · rintro ⟨v, v', h, h', rfl⟩
    exact List.rel_append h h'

section

variable {inner outer : Language Char}

theorem exists_entry_of_mem {key value : Language Char} {w : List Char}
    (hw : w ∈ entryForm key value) :
    ∃ k v : String, k.toList ∈ key ∧ v.toList ∈ value ∧
      ∃ g, IsBlank g ∧ w = k.toList ++ ':' :: (g ++ v.toList) := by
  obtain ⟨k, g, v, hk, hg, hv, rfl⟩ := mem_entryForm_cases hw
  exact ⟨String.ofList k, String.ofList v, by simpa using hk, by simpa using hv, g,
    isBlank_of_gap hg, by simp⟩

/-- The texts of a member are words of the languages of its name and its value. -/
def EntryTexts (languages : Language Char × Language Char) (texts : String × String) : Prop :=
  texts.1.toList ∈ languages.1 ∧ texts.2.toList ∈ languages.2

theorem membersText_of_mem_prod (hi : ∀ u ∈ inner, IsBlank u) {b : List Char} (hb : IsBlank b)
    {entries : List (Language Char × Language Char)}
    (hnames : ∀ e ∈ entries, ∀ u ∈ e.1, IsString u) {w : List Char}
    (hw : w ∈ (entries.map fun e => comma inner * entryForm e.1 e.2).prod) :
    ∃ texts, List.Forall₂ EntryTexts entries texts ∧ MembersText false texts (w ++ b) := by
  induction entries generalizing w with
  | nil =>
    have hw : w = [] := hw
    rw [hw]
    exact ⟨[], .nil, .done hb⟩
  | cons e entries ih =>
    obtain ⟨hname, hnames⟩ := List.forall_mem_cons.mp hnames
    rw [List.map_cons, List.prod_cons] at hw
    obtain ⟨_, hfirst, w, hrest, rfl⟩ := Language.mem_mul.mp hw
    obtain ⟨_, hcomma, _, hentry, rfl⟩ := Language.mem_mul.mp hfirst
    obtain ⟨_, rfl, b', hb', rfl⟩ := Language.mem_mul.mp hcomma
    obtain ⟨k, v, hk, hv, g, hg, rfl⟩ := exists_entry_of_mem hentry
    obtain ⟨texts, htexts, hmembers⟩ := ih hnames hrest
    refine ⟨(k, v) :: texts, .cons ⟨hk, hv⟩ htexts, ?_⟩
    have hnext : MembersText false ((k, v) :: texts) _ :=
      .next isBlank_nil (hi b' hb') (hname _ hk) hg hmembers
    simpa using hnext

theorem membersText_of_mem_joined (hi : ∀ u ∈ inner, IsBlank u) {b b' : List Char}
    (hb : IsBlank b) (hb' : IsBlank b') {entries : List (Language Char × Language Char)}
    (hnames : ∀ e ∈ entries, ∀ u ∈ e.1, IsString u) {w : List Char}
    (hw : w ∈ joined (comma inner) (entries.map fun e => entryForm e.1 e.2)) :
    ∃ texts, List.Forall₂ EntryTexts entries texts ∧ MembersText true texts (b ++ w ++ b') := by
  cases entries with
  | nil =>
    have hw : w = [] := hw
    rw [hw, List.append_nil]
    exact ⟨[], .nil, .done (hb.append hb')⟩
  | cons e entries =>
    obtain ⟨hname, hnames⟩ := List.forall_mem_cons.mp hnames
    rw [List.map_cons, joined_cons, List.map_map] at hw
    obtain ⟨_, hentry, w, hrest, rfl⟩ := Language.mem_mul.mp hw
    obtain ⟨k, v, hk, hv, g, hg, rfl⟩ := exists_entry_of_mem hentry
    obtain ⟨texts, htexts, hmembers⟩ := membersText_of_mem_prod hi hb' hnames hrest
    refine ⟨(k, v) :: texts, .cons ⟨hk, hv⟩ htexts, ?_⟩
    have hfirst : MembersText true ((k, v) :: texts) _ := .first hb (hname _ hk) hg hmembers
    simpa using hfirst

/-- Brackets around members. -/
theorem objectText_of_mem_bracketForm (hi : ∀ u ∈ inner, IsBlank u) (ho : ∀ u ∈ outer, IsBlank u)
    {possible : Prop} [Decidable possible] {inside : Language Char}
    {P : List (String × String) → Prop} (hnone : ¬ possible → P [])
    (hinside : ∀ x ∈ inside, ∀ b b', IsBlank b → IsBlank b' →
      ∃ texts, P texts ∧ MembersText true texts (b ++ x ++ b'))
    {w after : List Char} (hw : w ∈ bracketForm "\x7b" "\x7d" inner outer possible inside)
    (ha : IsBlank after) : ∃ texts, P texts ∧ ObjectText texts (w ++ after) := by
  obtain ⟨b, x, b', h, hb', rfl⟩ := mem_bracketForm_cases hw
  obtain ⟨texts, htexts, hmembers⟩ :
      ∃ texts, P texts ∧ MembersText true texts (b ++ x ++ b') := by
    rcases h with ⟨hb, hx⟩ | ⟨hp, rfl, rfl⟩
    · exact hinside x hx b b' (hi b hb) (ho b' hb')
    · exact ⟨[], hnone hp, .done (ho b' hb')⟩
  exact ⟨texts, htexts, by simpa using ObjectText.intro hmembers ha⟩

end

/-- The texts of a member that is written for a declared property. -/
def declaredTexts (m : (String × Schema) × String) : String × String := (stringText m.1.1, m.2)

/-- A choice of members: `declared` are those of declared properties, each with the text of its
value, and `more` are the texts of additional ones. -/
structure MembersChosen (shapes : Shapes) (shape : ObjectShape) (s : Schema)
    (declared : List ((String × Schema) × String)) (more : List (String × String)) : Prop where
  chosen : Chosen (fun e => s.isRequired e.1) s.declared (declared.map Prod.fst)
  declaredWords : ∀ m ∈ declared, ∃ p ∈ shape.properties, p.key = m.1.1 ∧
    m.2.toList ∈ shapes.language (.shape p.value)
  moreWords : ∀ m ∈ more, ∃ id, shape.additional = some id ∧
    m.1.toList ∈ (Terminal.string {}).language ∧ m.2.toList ∈ shapes.language (.shape id)

/-- How the text of an object is put together from a choice of members. -/
structure WrittenAs (shapes : Shapes) (shape : ObjectShape) (s : Schema)
    (declared : List ((String × Schema) × String)) (more : List (String × String))
    (text : String) : Prop extends MembersChosen shapes shape s declared more where
  text : ObjectText (declared.map declaredTexts ++ more) text.toList

/-- Choices along lists in step. -/
theorem Chosen.exists_forall₂ {α β : Type*} {R : α → β → Prop} {required : α → Bool}
    {required' : β → Bool} {all : List α} {all' chosen' : List β} (h : List.Forall₂ R all all')
    (hr : ∀ a b, R a b → required' b = required a) (hc : Chosen required' all' chosen') :
    ∃ chosen, Chosen required all chosen ∧ List.Forall₂ R chosen chosen' := by
  induction h generalizing chosen' with
  | nil =>
    cases hc
    exact ⟨[], .nil, .nil⟩
  | @cons a b all all' hab _ ih =>
    rcases chosen_cons_iff.mp hc with ⟨rest, rfl, hrest⟩ | ⟨hb, hrest⟩
    · obtain ⟨chosen, hchosen, hall⟩ := ih hrest
      exact ⟨a :: chosen, .take hchosen, .cons hab hall⟩
    · obtain ⟨chosen, hchosen, hall⟩ := ih hrest
      exact ⟨chosen, .skip ((hr a b hab).symm.trans hb) hchosen, hall⟩

section

variable {shapes : Shapes} {shape : ObjectShape} {s : Schema}

/-- The languages of the name and of the value of a declared member. -/
def propertyLanguages (shapes : Shapes) (p : Property) : Language Char × Language Char :=
  (Lexeme.word (stringText p.key), shapes.language (.shape p.value))

/-- The languages of the name and of the value of an additional member. -/
def additionalLanguages (shapes : Shapes) (id : ShapeId) : Language Char × Language Char :=
  ((Terminal.string {}).language, shapes.language (.shape id))

/-- The languages of all members: of some declared ones, and of `n` additional ones. -/
def rowLanguages (shapes : Shapes) (shape : ObjectShape) (chosen : List Property) (n : Nat) :
    List (Language Char × Language Char) :=
  chosen.map (propertyLanguages shapes) ++
    (shape.additional.map fun id => List.replicate n (additionalLanguages shapes id)).getD []

theorem exists_declaredTexts {chosen : List (String × Schema)} {properties : List Property}
    {texts : List (String × String)}
    (h : List.Forall₂ (fun e p => p.key = e.1) chosen properties)
    (ht : List.Forall₂ EntryTexts (properties.map (propertyLanguages shapes)) texts) :
    ∃ declared : List ((String × Schema) × String), declared.map Prod.fst = chosen ∧
      texts = declared.map declaredTexts ∧ ∀ m ∈ declared, ∃ p ∈ properties, p.key = m.1.1 ∧
        m.2.toList ∈ shapes.language (.shape p.value) := by
  induction h generalizing texts with
  | nil =>
    cases ht
    exact ⟨[], rfl, rfl, by simp⟩
  | @cons e p chosen properties hkey _ ih =>
    obtain ⟨m, texts, ⟨hname, hvalue⟩, htexts, rfl⟩ := List.forall₂_cons_left_iff.mp ht
    obtain ⟨declared, rfl, rfl, hdeclared⟩ := ih htexts
    have hm : m = (stringText e.1, m.2) := by
      rw [← hkey]
      exact Prod.ext (String.toList_inj.mp hname) rfl
    refine ⟨(e, m.2) :: declared, rfl, by rw [hm]; rfl, ?_⟩
    refine List.forall_mem_cons.mpr ⟨⟨p, List.mem_cons_self, hkey, hvalue⟩, fun d hd => ?_⟩
    obtain ⟨q, hq, hrest⟩ := hdeclared d hd
    exact ⟨q, List.mem_cons_of_mem _ hq, hrest⟩

theorem exists_of_mem_additional {n : Nat} {e : Language Char × Language Char}
    (h : e ∈ (shape.additional.map fun id =>
      List.replicate n (additionalLanguages shapes id)).getD []) :
    ∃ id, shape.additional = some id ∧ e = additionalLanguages shapes id := by
  cases ha : shape.additional with
  | none => simp [ha] at h
  | some id =>
    rw [ha] at h
    exact ⟨id, rfl, List.eq_of_mem_replicate h⟩

theorem isString_of_mem_rowLanguages {chosen : List Property} {n : Nat} :
    ∀ e ∈ rowLanguages shapes shape chosen n, ∀ u ∈ e.1, IsString u := by
  refine List.forall_mem_append.mpr ⟨List.forall_mem_map.mpr fun p _ u hu => ?_,
    fun e he u hu => ?_⟩
  · have hu : u = (stringText p.key).toList := hu
    exact hu ▸ isString_stringText p.key
  · obtain ⟨id, -, rfl⟩ := exists_of_mem_additional he
    exact isString_of_mem_string hu

/-- The languages that the members of an object are joined from. -/
theorem exists_rowLanguages {inner : Language Char} {w : List Char}
    (hw : w ∈ memberList inner
      (shape.properties.map fun p =>
        (entryForm (Lexeme.word (stringText p.key)) (shapes.language (.shape p.value)), p.required))
      (shape.additional.map fun id =>
        entryForm (Terminal.string {}).language (shapes.language (.shape id)))) :
    ∃ chosen n, Chosen Property.required shape.properties chosen ∧
      w ∈ joined (comma inner)
        ((rowLanguages shapes shape chosen n).map fun e => entryForm e.1 e.2) := by
  obtain ⟨_, n, hchosen, hn, hw⟩ := hw
  obtain ⟨chosen, hrequired, rfl⟩ := chosen_map_iff.mp hchosen
  refine ⟨chosen, n, hrequired, ?_⟩
  rw [rowLanguages, List.map_append, List.map_map]
  rw [List.map_map] at hw
  cases ha : shape.additional with
  | none =>
    rw [ha] at hw hn
    rw [hn rfl] at hw
    exact hw
  | some id =>
    rw [ha] at hw
    simpa [Function.comp_def, propertyLanguages, additionalLanguages] using hw

variable {sub : Schema → ShapeId → Prop}
  (hproperties : List.Forall₂
    (fun e p => p.key = e.1 ∧ p.required = s.isRequired e.1 ∧ sub e.2 p.value)
    s.declared shape.properties)

include hproperties

theorem exists_membersChosen {chosen : List Property} {n : Nat} {texts : List (String × String)}
    (hchosen : Chosen Property.required shape.properties chosen)
    (htexts : List.Forall₂ EntryTexts (rowLanguages shapes shape chosen n) texts) :
    ∃ declared more, MembersChosen shapes shape s declared more ∧
      texts = declared.map declaredTexts ++ more := by
  obtain ⟨chosen', hchosen', hstep⟩ :=
    Chosen.exists_forall₂ hproperties (fun _ _ h => h.2.1) hchosen
  have hkeys : List.Forall₂ (fun e p => p.key = e.1) chosen' chosen := hstep.imp fun _ _ h => h.1
  obtain ⟨first, more, hfirst, hmore, rfl⟩ := forall₂_append_left_iff.mp htexts
  obtain ⟨declared, rfl, rfl, hdeclared⟩ := exists_declaredTexts hkeys hfirst
  refine ⟨declared, more, ⟨hchosen', fun m hm => ?_, fun m hm => ?_⟩, rfl⟩
  · obtain ⟨p, hp, hword⟩ := hdeclared m hm
    exact ⟨p, hchosen.subset hp, hword⟩
  · obtain ⟨e, he, hname, hvalue⟩ := exists_mem_left hmore hm
    obtain ⟨id, hid, rfl⟩ := exists_of_mem_additional he
    exact ⟨id, hid, hname, hvalue⟩

/-- **Every word of an object's shape is put together from members.** -/
theorem exists_writtenAs {w after : List Char}
    (hw : w ∈ Shapes.shapeStep shapes.language (.object shape)) (ha : IsBlank after) {text : String}
    (htext : text.toList = w ++ after) :
    ∃ declared more, WrittenAs shapes shape s declared more text := by
  have hblank : ∀ (layout : Layout), ∀ u ∈ layout.blanks, IsBlank u := fun _ _ =>
    Layout.isBlank_of_mem
  have hempty : s.declared.length = 0 → MembersChosen shapes shape s [] [] := by
    intro hlength
    refine ⟨?_, by simp, by simp⟩
    rw [List.eq_nil_of_length_eq_zero hlength]
    exact .nil
  have hrow : ∃ texts, (∃ declared more, MembersChosen shapes shape s declared more ∧
      texts = declared.map declaredTexts ++ more) ∧ ObjectText texts (w ++ after) := by
    refine objectText_of_mem_bracketForm (hblank _) (hblank _) (fun hnone => ?_)
      (fun x hx b b' hb hb' => ?_) hw ha
    · have hlength := (not_not.mp hnone).1
      rw [List.length_map, ← hproperties.length_eq] at hlength
      exact ⟨[], [], hempty hlength, rfl⟩
    · obtain ⟨chosen, n, hchosen, hx⟩ := exists_rowLanguages hx
      obtain ⟨texts, htexts, hmembers⟩ :=
        membersText_of_mem_joined (hblank _) hb hb' isString_of_mem_rowLanguages hx
      exact ⟨texts, exists_membersChosen hproperties hchosen htexts, hmembers⟩
  obtain ⟨texts, ⟨declared, more, hchosen, rfl⟩, hobject⟩ := hrow
  exact ⟨declared, more, hchosen, htext ▸ hobject⟩

end

/-! ## Checking a part of a schema -/

/-- Checks a value against a part of a schema, before anything else is checked. -/
def Checking.part (s : Schema) (external : Assoc Schema) (part : PlaceStep × Schema)
    (value : Value) : CheckM Unit := do
  let scope := Scope.ofExternal external
  modify fun st => { st with registry := st.registry.declare scope }
  let inner ← enter s [] scope
  part.2.fold (step (follow (jumps s external value))) [part.1] value [] inner

/-- Checks a value against a part of a schema; the first mismatch is reported. -/
def validatePart (s : Schema) (external : Assoc Schema) (part : PlaceStep × Schema)
    (value : Value) : Except Failure Unit :=
  ((Checking.part s external part value).run {}).1

section

variable {s : Schema} {external : Assoc Schema}

/-- Checking a value alone decides whether the part admits it. -/
theorem validatePart_iff (hd : DistinctNames s external) (hs : LexicallyScoped s external)
    {part : PlaceStep × Schema} (hpart : part ∈ s.children) (value : Value) :
    validatePart s external part value = .ok () ↔
      Schema.Admits noDemand ∅ (s.inner [external]) part.2 value := by
  obtain ⟨hsound, hsees⟩ := Scope.sound_external hd
  let st : Checking := { registry := ScopeRegistry.declare {} (Scope.ofExternal external) }
  have hdepth : ([] : Path).length + value.depth ≤ value.depth := by simp
  have hfold : Judges s external st
      (Checking.enter s [] (Scope.ofExternal external) >>= fun inner =>
        part.2.fold (Checking.step (Checking.follow (Checking.jumps s external value))) [part.1]
          value [] inner)
      (Schema.Admits noDemand ∅ (s.inner [external]) part.2 value)
      (Schema.Admits noDemand ∅ (s.inner [external]) part.2 value) := by
    refine Checking.judges_enter hd hsound hsees .root fun st' hadv hinner => ?_
    have hnone : st'.active = [] := hadv.active
    have hall : JudgesFragments s external noDemand value.depth (Checking.jumps s external value) :=
      judgesFragments hd hs _
    have hjudges :=
      hall (.child .root hpart) hinner hadv.sound (hnone ▸ activeAt_start value) hdepth
    rwa [Checking.demanding_noDemand, Checking.followUnder_noDemand, hnone,
      avoidedAt_nil] at hjudges
  obtain ⟨outcome, st', hrun, -, hp, hq⟩ := hfold
  have hvalidate : validatePart s external part value = outcome := congrArg Prod.fst hrun
  rw [hvalidate]
  exact ⟨hp, hq⟩

end

/-! ## Parsing an object -/

theorem CompiledSchema.parse_eq_ok_iff {c : CompiledSchema} {text : String} {v : Value} :
    c.parse text = .ok v ↔
      parseDocument text = .ok v ∧ validate c.schema c.external v = .ok () := by
  unfold parse
  cases parseDocument text with
  | error fault => simp
  | ok value =>
    dsimp only
    constructor
    · intro h
      cases hv : validate c.schema c.external value with
      | error failure =>
        rw [hv] at h
        cases h
      | ok _ =>
        rw [hv] at h
        cases h
        exact ⟨rfl, hv⟩
    · rintro ⟨⟨⟩, hv⟩
      rw [hv]
      rfl

theorem CompiledSchema.compile_inv {s : Schema} {external : Assoc Schema} {options : Options}
    {c : CompiledSchema} (h : compile s external options = .ok c) :
    c.schema = s ∧ c.external = external ∧ grammarText s external options = .ok c.grammar := by
  unfold compile at h
  cases hg : grammarText s external options with
  | error error =>
    rw [hg] at h
    cases h
  | ok grammar =>
    rw [hg] at h
    cases h
    exact ⟨rfl, rfl, rfl⟩

section

variable {s : Schema} {external : Assoc Schema} {options : Options} {grammar : String}

/-- The shape of an object, and how the texts of the grammar are put together. -/
theorem exists_shape_of_object (hd : DistinctNames s external) (hs : LexicallyScoped s external)
    (hobject : s.criterion = .types [.object])
    (h : grammarText s external options = .ok grammar) :
    ∃ lowered shape, lower s external options.layout = .ok lowered ∧
      lowered.shapes.get? lowered.root = some (.object shape) ∧
      (∀ id, shape.additional = some id → s.additional.any Additional.isOpen = true) ∧
      ∀ text, Accepts grammar text →
        ∃ declared more, WrittenAs lowered.shapes shape s declared more text := by
  obtain ⟨lowered, body, env, hlower, hread, hvis, hlang, haccepts⟩ := accepts_iff_padded h
  obtain ⟨standing, hfaithful, hroot⟩ := exists_faithful hd hs hlower
  obtain ⟨shape, hget, hproperties, hmore⟩ := hfaithful.exists_object hobject hroot
  refine ⟨lowered, shape, hlower, hget, fun id hid => ?_, fun text ha => ?_⟩
  · exact (hmore.admits (X := fun _ _ => True) (Y := fun _ _ => True) (fun _ _ _ _ _ => trivial) hid
      (v := .null) trivial).1
  · obtain ⟨u, k, hu, -, htext⟩ := mem_of_mem_padded hread hvis ((haccepts text).mp ha)
    rw [hlang, Shapes.mem_language_iff hget] at hu
    exact exists_writtenAs hproperties hu (isBlank_replicate (by decide) k) htext

end

/-- The value of a declared member is JSON by itself, and fits the property. -/
def DeclaredFits (s : Schema) (external : Assoc Schema) (m : (String × Schema) × String)
    (v : Value) : Prop :=
  parseDocument m.2 = .ok v ∧ validatePart s external (.property m.1.1, m.1.2) v = .ok ()

/-- The value of an additional member is JSON by itself, and fits what is asked of such members. -/
def AdditionalFits (s : Schema) (external : Assoc Schema) (m : String × String)
    (v : Value) : Prop :=
  parseDocument m.2 = .ok v ∧
    ∀ c, s.additional = some (.schema c) → validatePart s external (.additional, c) v = .ok ()

section

variable {s : Schema} {external : Assoc Schema} {shapes : Shapes} {shape : ObjectShape}
  {declared : List ((String × Schema) × String)} {more : List (String × String)} {text : String}
  {values moreValues : List Value}

/-- The names of declared members are read as they are. -/
theorem names_declaredTexts_iff {names : List String} :
    List.Forall₂ (fun m name => Names m.1.toList name) (declared.map declaredTexts) names ↔
      names = declared.map fun m => m.1.1 := by
  rw [List.forall₂_map_left_iff]
  constructor
  · intro h
    induction h with
    | nil => rfl
    | cons hname _ ih => rw [List.map_cons, ← ih, hname.unique (names_stringText _)]
  · rintro rfl
    rw [List.forall₂_map_right_iff]
    exact List.forall₂_same.mpr fun m _ => names_stringText m.1.1

theorem names_more_iff (h : MembersChosen shapes shape s declared more) {names : List String} :
    List.Forall₂ (fun m name => Names m.1.toList name) more names ↔
      List.Forall₂ (fun m name => parseDocument m.1 = .ok (.string name)) more names := by
  have hstring : ∀ m ∈ more, ∀ name,
      Names m.1.toList name ↔ parseDocument m.1 = .ok (.string name) := by
    intro m hm name
    obtain ⟨id, -, hword, -⟩ := h.moreWords m hm
    exact (parseNested_eq_string_iff (isString_of_mem_string hword)).symm
  constructor
  · exact fun hnames => (forall₂_mem hnames).imp fun m name hm => (hstring m hm.1.1 name).mp hm.2
  · exact fun hnames => (forall₂_mem hnames).imp fun m name hm => (hstring m hm.1.1 name).mpr hm.2

/-- When an object can be read, and as what. -/
theorem parseDocument_writtenAs_iff (hw : WrittenAs shapes shape s declared more text)
    (hvalues : List.Forall₂ (DeclaredFits s external) declared values)
    (hmore : List.Forall₂ (AdditionalFits s external) more moreValues) (v : Value) :
    parseDocument text = .ok v ↔
      (∀ m ∈ declared.map declaredTexts ++ more,
        (parseNested (depthLimit - 1) m.2).isOk = true) ∧
      ∃ names, List.Forall₂ (fun m name => parseDocument m.1 = .ok (.string name)) more names ∧
        v = .object (Assoc.ofList
          ((declared.map fun m => m.1.1).zip values ++ names.zip moreValues)) := by
  have hparts : List.Forall₂ (fun m x => parseNested (depthLimit - 1 + 1) m.2 = .ok x)
      (declared.map declaredTexts ++ more) (values ++ moreValues) := by
    refine List.rel_append ?_ (hmore.imp fun _ _ h => h.1)
    rw [List.forall₂_map_left_iff]
    exact hvalues.imp fun _ _ h => h.1
  have hlength : (declared.map fun m => m.1.1).length = values.length := by
    rw [List.length_map, hvalues.length_eq]
  have hread := parseNested_objectText_iff hw.text hparts (v := v)
  refine hread.trans (and_congr_right fun _ => ?_)
  constructor
  · rintro ⟨_, hall, rfl⟩
    obtain ⟨_, names, hfirst, hnames, rfl⟩ := forall₂_append_left_iff.mp hall
    obtain rfl := names_declaredTexts_iff.mp hfirst
    exact ⟨names, (names_more_iff hw.toMembersChosen).mp hnames, by rw [List.zip_append hlength]⟩
  · rintro ⟨names, hnames, rfl⟩
    refine ⟨(declared.map fun m => m.1.1) ++ names, ?_, by rw [List.zip_append hlength]⟩
    exact List.rel_append (names_declaredTexts_iff.mpr rfl)
      ((names_more_iff hw.toMembersChosen).mpr hnames)

/-- What is left to check once all members were merged. -/
theorem validate_merged_iff (hd : DistinctNames s external) (hs : LexicallyScoped s external)
    (hobject : s.criterion = .types [.object])
    (hopen : ∀ id, shape.additional = some id → s.additional.any Additional.isOpen = true)
    (hchosen : MembersChosen shapes shape s declared more)
    (hvalues : List.Forall₂ (DeclaredFits s external) declared values)
    (hmore : List.Forall₂ (AdditionalFits s external) more moreValues) (names : List String) :
    validate s external (.object (Assoc.ofList
        ((declared.map fun m => m.1.1).zip values ++ names.zip moreValues))) = .ok () ↔
      ∀ e ∈ s.declared, ∀ x,
        Assoc.get? e.1 (Assoc.ofList (names.zip moreValues)) = some x →
          validatePart s external (.property e.1, e.2) x = .ok () := by
  have hproperty : ∀ e ∈ s.declared, ∀ v, validatePart s external (.property e.1, e.2) v = .ok () ↔
      Schema.Admits noDemand ∅ (s.inner [external]) e.2 v := fun e he v =>
    validatePart_iff hd hs (Schema.property_mem_children he) v
  have hmerged : (declared.map fun m => m.1.1).zip values =
      ((declared.map Prod.fst).zip values).map fun m => (m.1.1, m.2) := by
    rw [List.zip_map_left, List.zip_map_left, List.map_map]
    rfl
  have hlength : (declared.map Prod.fst).length = values.length := by
    rw [List.length_map, hvalues.length_eq]
  have hfits : ∀ m ∈ (declared.map Prod.fst).zip values,
      Schema.Admits noDemand ∅ (s.inner [external]) m.1.2 m.2 := by
    intro m hm
    have hall : List.Forall₂ (fun e v => validatePart s external (.property e.1, e.2) v = .ok ())
        (declared.map Prod.fst) values :=
      List.forall₂_map_left_iff.mpr (hvalues.imp fun _ _ h => h.2)
    exact (hproperty m.1 (hchosen.chosen.subset (List.of_mem_zip hm).1) m.2).mp
      (List.forall₂_zip hall hm)
  have hothers : ∀ m ∈ names.zip moreValues, s.additional.any Additional.isOpen = true ∧
      ∀ c, s.additional = some (.schema c) →
        Schema.Admits noDemand ∅ (s.inner [external]) c m.2 := by
    intro m hm
    obtain ⟨texts, htexts, hfit⟩ := exists_mem_left hmore (List.of_mem_zip hm).2
    obtain ⟨id, hid, -⟩ := hchosen.moreWords texts htexts
    refine ⟨hopen id hid, fun c hc => ?_⟩
    exact (validatePart_iff hd hs (Schema.additional_mem_children hc) m.2).mp (hfit.2 c hc)
  have hdistinct : s.declared.keys.Nodup := (Schema.isDistinct_iff.mp hd.schema).1
  have hwhole := Schema.admitsAs_merged_iff hdistinct
    (by rw [List.map_fst_zip hlength.le]; exact hchosen.chosen) hfits hothers
  rw [← validateUnder_noDemand, validateUnder_iff hd hs, Schema.admits_iff, hobject, hmerged]
  simp only [Schema.Meets, List.mem_singleton, exists_eq_left, noDemand, and_true]
  rw [hwhole]
  exact forall₂_congr fun e he => forall₂_congr fun x _ => (hproperty e he x).symm

/-- **When an object is accepted whose members are, taken alone.** The texts of the grammar of an
object are put together from members. If the value of every member is JSON by itself and fits the
fragment it was written for, the whole is accepted exactly if no value has all the brackets open
that a text may have, every additional name can be read, and the last additional member with the
name of a declared property fits that property as well. -/
theorem parse_object_iff {options : Options} {c : CompiledSchema}
    (hcompile : CompiledSchema.compile s external options = .ok c) (hd : DistinctNames s external)
    (hs : LexicallyScoped s external) (hobject : s.criterion = .types [.object]) :
    ∃ lowered shape, lower s external options.layout = .ok lowered ∧
      lowered.shapes.get? lowered.root = some (.object shape) ∧
      (∀ text, Accepts c.grammar text →
        ∃ declared more, WrittenAs lowered.shapes shape s declared more text) ∧
      ∀ declared more text, WrittenAs lowered.shapes shape s declared more text →
        ∀ values moreValues, List.Forall₂ (DeclaredFits s external) declared values →
          List.Forall₂ (AdditionalFits s external) more moreValues → ∀ v,
          (c.parse text = .ok v ↔
            (∀ m ∈ declared.map declaredTexts ++ more,
              (parseNested (depthLimit - 1) m.2).isOk = true) ∧
            ∃ names,
              List.Forall₂ (fun m name => parseDocument m.1 = .ok (.string name)) more names ∧
              (∀ e ∈ s.declared, ∀ x,
                Assoc.get? e.1 (Assoc.ofList (names.zip moreValues)) = some x →
                  validatePart s external (.property e.1, e.2) x = .ok ()) ∧
              v = .object (Assoc.ofList
                ((declared.map fun m => m.1.1).zip values ++ names.zip moreValues))) := by
  obtain ⟨hschema, hexternal, hgrammar⟩ := CompiledSchema.compile_inv hcompile
  obtain ⟨lowered, shape, hlower, hget, hopen, hwritten⟩ :=
    exists_shape_of_object hd hs hobject hgrammar
  refine ⟨lowered, shape, hlower, hget, hwritten, ?_⟩
  intro declared more text hw values moreValues hvalues hmore v
  rw [CompiledSchema.parse_eq_ok_iff, hschema, hexternal,
    parseDocument_writtenAs_iff hw hvalues hmore v]
  constructor
  · rintro ⟨⟨hdepth, names, hnames, rfl⟩, hvalid⟩
    exact ⟨hdepth, names, hnames, (validate_merged_iff hd hs hobject hopen hw.toMembersChosen
      hvalues hmore names).mp hvalid, rfl⟩
  · rintro ⟨hdepth, names, hnames, hmerged, rfl⟩
    exact ⟨⟨hdepth, names, hnames, rfl⟩, (validate_merged_iff hd hs hobject hopen hw.toMembersChosen
      hvalues hmore names).mpr hmerged⟩

end

/-! ## Coinciding names -/

/-- An object with a whole number under one name and strings under all others. -/
def notesSchema : Schema :=
  { types := some (.one .object)
    properties := some [("a", { types := some (.one .integer) })]
    additional := some (.schema { types := some (.one .string) }) }

/-- The shape of such an object. -/
def notesShape : ObjectShape :=
  { properties := [⟨"a", 0, true⟩], additional := some 1, layout := ⟨true, 4, 0⟩ }

/-- All shapes of `notesSchema`. -/
def notesLowered : Lowered :=
  { shapes := ⟨#[.terminal (.number false), .terminal (.string {}), .object notesShape]⟩
    root := 2 }

/-- The declared member. -/
def notesDeclared : List ((String × Schema) × String) :=
  [(("a", { types := some (.one .integer) }), "1")]

/-- An object with the declared member and one additional member. -/
def notesText (name note : String) : String :=
  String.ofList ('\x7b' :: ((stringText "a").toList ++ ':' :: "1".toList ++ ',' ::
    ((stringText name).toList ++ ':' :: (stringText note).toList)) ++ ['\x7d'])

theorem lower_notesSchema : lower notesSchema [] ⟨true, 4, 0⟩ = .ok notesLowered := rfl

theorem distinctNames_notesSchema : DistinctNames notesSchema [] :=
  ⟨List.nodup_nil, by decide, fun _ he => absurd he List.not_mem_nil⟩

theorem lexicallyScoped_notesSchema : LexicallyScoped notesSchema [] :=
  ⟨by decide, fun _ he => absurd he List.not_mem_nil⟩

theorem one_mem_language : "1".toList ∈ notesLowered.shapes.language (.shape 0) := by
  have hget : notesLowered.shapes.get? 0 = some (.terminal (.number false)) := rfl
  have hone : (Number.integer 1).text = "1" := by decide
  rw [Shapes.mem_language_iff hget]
  exact hone ▸ integer_text_mem 1

theorem stringText_mem_language {name : String} (h : '\x7f' ∉ name.toList) :
    (stringText name).toList ∈ (Terminal.string {}).language :=
  stringText_mem h ⟨Nat.zero_le _, by simp⟩

theorem note_mem_language {note : String} (h : '\x7f' ∉ note.toList) :
    (stringText note).toList ∈ notesLowered.shapes.language (.shape 1) := by
  have hget : notesLowered.shapes.get? 1 = some (.terminal (.string {})) := rfl
  rw [Shapes.mem_language_iff hget]
  exact stringText_mem_language h

section

variable {name note : String} (hname : '\x7f' ∉ name.toList) (hnote : '\x7f' ∉ note.toList)

include hname hnote

theorem writtenAs_notesText :
    WrittenAs notesLowered.shapes notesShape notesSchema notesDeclared
      [(stringText name, stringText note)] (notesText name note) := by
  refine ⟨⟨.take .nil, ?_, ?_⟩, ?_⟩
  · intro m hm
    obtain rfl := List.mem_singleton.mp hm
    exact ⟨_, List.mem_cons_self, rfl, one_mem_language⟩
  · intro m hm
    obtain rfl := List.mem_singleton.mp hm
    exact ⟨1, rfl, stringText_mem_language hname, note_mem_language hnote⟩
  · have hnext : MembersText false [(stringText name, stringText note)] _ :=
      .next isBlank_nil isBlank_nil (isString_stringText name) isBlank_nil (.done isBlank_nil)
    have hfirst : MembersText true [(stringText "a", "1"), (stringText name, stringText note)] _ :=
      .first isBlank_nil (isString_stringText "a") isBlank_nil hnext
    simpa [notesText, notesDeclared, declaredTexts] using ObjectText.intro hfirst isBlank_nil

theorem accepts_notesText {grammar : String} (h : grammarText notesSchema [] {} = .ok grammar) :
    Accepts grammar (notesText name note) := by
  obtain ⟨lowered, hlower, haccepts⟩ := accepts_of_mem_language h
  obtain rfl := Except.ok.inj (lower_notesSchema.symm.trans hlower)
  have hget : notesLowered.shapes.get? 2 = some (.object notesShape) := rfl
  have hkey : (stringText "a").toList ∈ Lexeme.word (stringText "a") := rfl
  have hfits : Style.compact.Fits 0 notesShape.layout.descend.blanks notesShape.layout.blanks :=
    Style.fits_compact (Layout.nil_mem_blanks _) (Layout.nil_mem_blanks _)
  have hdeclared := mem_entryForm hfits.space hkey one_mem_language
  have hmore :=
    mem_entryForm hfits.space (stringText_mem_language hname) (note_mem_language hnote)
  have htext : (notesText name note).toList = Style.compact.bracketed 0 "\x7b" "\x7d"
      ([Style.compact.entry "a" "1".toList] ++
        [Style.compact.entry name (stringText note).toList]) := by
    rw [Style.bracketed_compact]
    simp [notesText, Style.entry, Style.compact]
  refine haccepts _ ((Shapes.mem_language_iff hget).mpr ?_)
  rw [htext]
  exact mem_objectForm hfits (.take .nil)
    (.cons hdeclared .nil) (List.forall_mem_singleton.mpr ⟨_, rfl, hmore⟩)

end

theorem declaredFits_notes :
    List.Forall₂ (DeclaredFits notesSchema []) notesDeclared [.number (.integer 1)] := by
  refine .cons ⟨?_, rfl⟩ .nil
  cbv

theorem additionalFits_notes (name note : String) :
    List.Forall₂ (AdditionalFits notesSchema []) [(stringText name, stringText note)]
      [.string note] := by
  refine .cons ⟨parseDocument_stringText note, ?_⟩ .nil
  rintro _ ⟨⟩
  rfl

theorem exists_compile_notesSchema :
    ∃ c, CompiledSchema.compile notesSchema [] {} = .ok c :=
  eq_ok_of_isOk (by decide)

/-- An additional member of another name does no harm. -/
theorem parse_notesText :
    ∃ c, CompiledSchema.compile notesSchema [] {} = .ok c ∧
      c.parse (notesText "b" "x") =
        .ok (.object [("a", .number (.integer 1)), ("b", .string "x")]) := by
  obtain ⟨c, hc⟩ := exists_compile_notesSchema
  refine ⟨c, hc, ?_⟩
  obtain ⟨lowered, shape, hlower, hget, -, hparse⟩ :=
    parse_object_iff hc distinctNames_notesSchema lexicallyScoped_notesSchema rfl
  obtain rfl := Except.ok.inj (lower_notesSchema.symm.trans hlower)
  cases hget
  refine (hparse _ _ _ (writtenAs_notesText (by decide) (by decide)) _ _ declaredFits_notes
    (additionalFits_notes "b" "x") _).mpr ⟨by decide +kernel, ["b"],
      .cons (parseDocument_stringText "b") .nil, ?_, rfl⟩
  intro e he x hx
  obtain rfl := List.mem_singleton.mp he
  cases hx

/-- An additional member may have the name of the declared one. It takes its place when the text is
read, and a string is no number. -/
theorem not_parse_coinciding :
    notesText "a" "x" = "\x7b\"a\":1,\"a\":\"x\"\x7d" ∧
    ∃ c, CompiledSchema.compile notesSchema [] {} = .ok c ∧ Accepts c.grammar (notesText "a" "x") ∧
      WrittenAs notesLowered.shapes notesShape notesSchema notesDeclared
        [(stringText "a", stringText "x")] (notesText "a" "x") ∧
      List.Forall₂ (DeclaredFits notesSchema []) notesDeclared [.number (.integer 1)] ∧
      List.Forall₂ (AdditionalFits notesSchema []) [(stringText "a", stringText "x")]
        [.string "x"] ∧
      ∀ v, c.parse (notesText "a" "x") ≠ .ok v := by
  obtain ⟨c, hc⟩ := exists_compile_notesSchema
  obtain ⟨hschema, hexternal, hgrammar⟩ := CompiledSchema.compile_inv hc
  have hw : WrittenAs _ _ _ _ _ (notesText "a" "x") :=
    writtenAs_notesText (by decide) (by decide)
  have hmore := additionalFits_notes "a" "x"
  refine ⟨rfl, c, hc, accepts_notesText (by decide) (by decide) hgrammar, hw,
    declaredFits_notes, hmore, ?_⟩
  intro v hv
  rw [CompiledSchema.parse_eq_ok_iff, hschema, hexternal,
    parseDocument_writtenAs_iff hw declaredFits_notes hmore] at hv
  obtain ⟨⟨-, names, hnames, rfl⟩, hvalid⟩ := hv
  obtain _ | ⟨hname, ⟨⟩⟩ := hnames
  obtain rfl := Value.string.inj
    (Except.ok.inj (hname.symm.trans (parseDocument_stringText "a")))
  cases hvalid

end SchemaGrammar
