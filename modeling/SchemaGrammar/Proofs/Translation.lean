import SchemaGrammar.Proofs.Meaning

/-!
# Every construct is translated faithfully

The bodies written for leaves, choices, references, lists, objects and free-form values translate
their goals: whatever the references in them stand for, the body says of these languages what the
equation of the goal says. Each lemma is the language of the body, calculated before, and the
monotonicity of the form.

## Main results

* `translates_terminal`, `translates_string`: leaves.
* `translates_choice`, `translates_array`, `translates_object`: shapes.
* `translates_freeList`, `translates_freeObject`, `translates_json`: free-form values.
-/

namespace SchemaGrammar

open Grammar

variable {shapes : Shapes}

/-! ## Goals with the same equation -/

theorem Translates.congr {parts : List (Goal × Body)} {goal goal' : Goal} {body : Body}
    (h : Translates shapes parts goal body)
    (he : ∀ env, goal.unfolded shapes env = goal'.unfolded shapes env) :
    Translates shapes parts goal' body := by
  intro words env
  rw [← he env]
  exact h words env

/-- `Drafts shapes owners rules goal body`: the body translates the goal with references that stand
for its parts. -/
def Drafts (shapes : Shapes) (owners : Owners) (rules : Assoc Body) (goal : Goal) (body : Body) :
    Prop :=
  ∃ parts : List (Goal × Body), (∀ p ∈ parts, Resolves shapes owners rules p.1 p.2) ∧
    Translates shapes parts goal body

section

variable {owners owners' : Owners} {rules rules' : Assoc Body} {goal goal' : Goal} {ref body : Body}

theorem Drafts.mono (h : Drafts shapes owners rules goal body) (ho : owners ⊆ owners')
    (he : Extends rules rules') : Drafts shapes owners' rules' goal body := by
  obtain ⟨parts, hparts, ht⟩ := h
  exact ⟨parts, fun p hp => (hparts p hp).mono ho he, ht⟩

theorem Drafts.congr (h : Drafts shapes owners rules goal body)
    (he : ∀ env, goal.unfolded shapes env = goal'.unfolded shapes env) :
    Drafts shapes owners rules goal' body := by
  obtain ⟨parts, hparts, ht⟩ := h
  exact ⟨parts, hparts, ht.congr he⟩

/-- What denotes a draft stands for its goal. -/
theorem Drafts.resolves (h : Drafts shapes owners rules goal body) (hd : Denotes rules ref body) :
    Resolves shapes owners rules goal ref := by
  obtain ⟨parts, hparts, ht⟩ := h
  exact .built parts hparts ht hd

end

/-- A goal that is another goal is translated by a reference to that one. -/
theorem translates_alias {goal goal' : Goal} (ref : Body)
    (h : ∀ env, goal.unfolded shapes env = goal'.language env) :
    Translates shapes [(goal', ref)] goal ref := by
  intro words env
  rw [h env]
  exact ⟨fun hp => hp _ List.mem_cons_self, fun hp => hp _ List.mem_cons_self⟩

/-- A reference is a draft of a goal that is its own. -/
theorem Resolves.drafts {owners : Owners} {rules : Assoc Body} {goal goal' : Goal} {ref : Body}
    (h : Resolves shapes owners rules goal' ref)
    (he : ∀ env, goal.unfolded shapes env = goal'.language env) :
    Drafts shapes owners rules goal ref :=
  ⟨[(goal', ref)], List.forall_mem_singleton.mpr h, translates_alias ref he⟩

/-- A goal that is another goal has the references of that one. -/
theorem Resolves.alias {owners : Owners} {rules : Assoc Body} {goal goal' : Goal} {ref : Body}
    (h : Resolves shapes owners rules goal' ref)
    (he : ∀ env, goal.unfolded shapes env = goal'.language env) :
    Resolves shapes owners rules goal ref :=
  (h.drafts he).resolves (.refl ref)

theorem unfolded_shape {id : ShapeId} {shape : Shape} (h : shapes.get? id = some shape)
    (env : Node → Language Char) :
    (Goal.node (.shape id)).unfolded shapes env = Shapes.shapeStep env shape :=
  Shapes.step_of_get? h env

/-! ## Leaves -/

theorem translates_terminal {t : Terminal} (h : t.isString = false) :
    Translates shapes [] (.terminal t) (t.body .empty) := by
  intro words env
  have heq : (t.body .empty).language words = (Goal.terminal t).unfolded shapes env :=
    t.language_body h
  exact ⟨fun _ => heq.le, fun _ => heq.ge⟩

theorem counted_mono {bounds : LengthBounds} {l l' : Language Char} (h : l ≤ l') :
    Lexeme.quoted (Lexeme.counted bounds l) ≤ Lexeme.quoted (Lexeme.counted bounds l') := by
  have hcounted : Lexeme.counted bounds l ≤ Lexeme.counted bounds l' := by
    rintro w ⟨k, hk, hw⟩
    exact ⟨k, hk, pow_le_pow_left' h k hw⟩
  exact mul_le_mul' (mul_le_mul' le_rfl hcounted) le_rfl

theorem translates_string {bounds : LengthBounds} (hb : ∀ m ∈ bounds.most, bounds.least ≤ m)
    {charRule : Body} (h : charRule.IsPart) :
    Translates shapes [(.terminal .stringChar, charRule)] (.terminal (.string bounds))
      (stringBody bounds charRule) := by
  intro words env
  rw [language_stringBody hb h]
  exact ⟨fun hp => counted_mono (hp _ List.mem_cons_self),
    fun hp => counted_mono (hp _ List.mem_cons_self)⟩

/-! ## Shapes -/

/-- Shapes, and the references that stand for them. -/
def nodeParts (ids : List ShapeId) (refs : List Body) : List (Goal × Body) :=
  (ids.zip refs).map fun p => (.node (.shape p.1), p.2)

/-- The blanks in a container, and the references that stand for them. -/
def blankParts (layout : Layout) (inner outer : Body) : List (Goal × Body) :=
  [(.terminal (.whitespace layout.descend), inner), (.terminal (.whitespace layout), outer)]

section

/- `R` compares the words of a reference with those of a goal, in either direction. -/
variable {words : String → Language Char} {env : Node → Language Char}
  {R : Language Char → Language Char → Prop} {rest : List (Goal × Body)}

theorem forall₂_of_nodeParts {ids : List ShapeId} {refs : List Body}
    (hlen : ids.length = refs.length)
    (h : ∀ p ∈ nodeParts ids refs, R (p.2.language words) (p.1.language env)) :
    List.Forall₂ R (refs.map (·.language words)) (ids.map (env <| .shape ·)) := by
  refine List.Forall₂.flip ?_
  rw [List.forall₂_map_left_iff, List.forall₂_map_right_iff, List.forall₂_iff_zip]
  exact ⟨hlen, fun hz => h _ (List.mem_map.mpr ⟨_, hz, rfl⟩)⟩

theorem of_blankParts {layout : Layout} {inner outer : Body}
    (h : ∀ p ∈ blankParts layout inner outer ++ rest, R (p.2.language words) (p.1.language env)) :
    R (inner.language words) layout.descend.blanks ∧ R (outer.language words) layout.blanks ∧
      ∀ p ∈ rest, R (p.2.language words) (p.1.language env) :=
  ⟨h _ List.mem_cons_self, h _ (List.mem_cons_of_mem _ List.mem_cons_self),
    fun p hp => h p (List.mem_append_right _ hp)⟩

theorem of_parts_cons {part : Goal × Body}
    (h : ∀ p ∈ part :: rest, R (p.2.language words) (p.1.language env)) :
    R (part.2.language words) (part.1.language env) ∧
      ∀ p ∈ rest, R (p.2.language words) (p.1.language env) :=
  List.forall_mem_cons.mp h

end

theorem exists_mem_nodeParts_of_ref {ids : List ShapeId} {refs : List Body}
    (hlen : ids.length = refs.length) {ref : Body} (h : ref ∈ refs) :
    ∃ id ∈ ids, (Goal.node (.shape id), ref) ∈ nodeParts ids refs := by
  rw [← List.map_snd_zip (Nat.le_of_eq hlen.symm)] at h
  obtain ⟨p, hp, rfl⟩ := List.mem_map.mp h
  exact ⟨p.1, (List.of_mem_zip hp).1, List.mem_map.mpr ⟨p, hp, rfl⟩⟩

theorem exists_mem_nodeParts_of_id {ids : List ShapeId} {refs : List Body}
    (hlen : ids.length = refs.length) {id : ShapeId} (h : id ∈ ids) :
    ∃ ref ∈ refs, (Goal.node (.shape id), ref) ∈ nodeParts ids refs := by
  rw [← List.map_fst_zip (Nat.le_of_eq hlen)] at h
  obtain ⟨p, hp, rfl⟩ := List.mem_map.mp h
  exact ⟨p.2, (List.of_mem_zip hp).2, List.mem_map.mpr ⟨p, hp, rfl⟩⟩

/-- A choice between shapes. -/
theorem translates_choice {id : ShapeId} {members : List ShapeId} {refs : List Body}
    (hstep : ∀ env w, w ∈ shapes.step env (.shape id) ↔ ∃ m ∈ members, w ∈ env (.shape m))
    (hlen : members.length = refs.length) (hne : members ≠ []) (hrefs : ∀ b ∈ refs, b.IsPart) :
    Translates shapes (nodeParts members refs) (.node (.shape id)) (alternation refs) := by
  have hparts : ∀ b ∈ refs, b.Readable ∧ b.isBlank = false := fun b hb =>
    ⟨(hrefs b hb).segment.readable, (hrefs b hb).visible⟩
  have hrefsNe : refs ≠ [] := fun h => hne (List.length_eq_zero_iff.mp (by simp [hlen, h]))
  intro words env
  constructor
  · intro hp w hw
    obtain ⟨ref, href, hw⟩ := (mem_alternation hrefsNe hparts).mp hw
    obtain ⟨m, hm, hmem⟩ := exists_mem_nodeParts_of_ref hlen href
    exact (hstep env w).mpr ⟨m, hm, hp _ hmem hw⟩
  · intro hp w hw
    obtain ⟨m, hm, hw⟩ := (hstep env w).mp hw
    obtain ⟨ref, href, hmem⟩ := exists_mem_nodeParts_of_id hlen hm
    exact (mem_alternation hrefsNe hparts).mpr ⟨ref, href, hp _ hmem hw⟩

section

variable {inner outer : Body}

/-- A list. -/
theorem translates_array {id : ShapeId} {shape : ArrayShape}
    (h : shapes.get? id = some (.array shape))
    (hin : inner.IsSegment) (hout : outer.IsSegment) {leading : List Body}
    (hlen : shape.leading.length = leading.length) (hl : ∀ b ∈ leading, b.IsPart) {item : Body}
    (hi : item.IsPart) (hleast : shape.leading.length ≤ shape.least)
    (hmost : ∀ m ∈ shape.most, shape.least ≤ m) :
    Translates shapes
      (blankParts shape.layout inner outer ++
        (.node (.shape shape.items), item) :: nodeParts shape.leading leading)
      (.node (.shape id)) (arrayBody inner outer leading item shape.least shape.most) := by
  intro words env
  rw [unfolded_shape h, language_arrayBody hin hout hl hi (hlen ▸ hleast) hmost]
  constructor
  · intro hp
    obtain ⟨hinner, houter, hp⟩ := of_blankParts hp
    obtain ⟨hitem, hp⟩ := of_parts_cons hp
    exact listForm_mono hinner houter (forall₂_of_nodeParts hlen hp) hitem
  · intro hp
    obtain ⟨hinner, houter, hp⟩ := of_blankParts (R := fun a b => b ≤ a) hp
    obtain ⟨hitem, hp⟩ := of_parts_cons (R := fun a b => b ≤ a) hp
    exact listForm_mono hinner houter (forall₂_of_nodeParts hlen hp).flip hitem

/-- The bodies of the declared members of an object, given the references to their values. -/
def memberBodies (properties : List Property) (refs : List Body) : List Member :=
  (properties.zip refs).map fun p => ⟨entry (jsonLiteral p.1.key) p.2, p.1.required⟩

theorem isSegment_jsonLiteral (text : String) : (jsonLiteral text).IsSegment :=
  Body.isSegment_literal _

theorem isPart_memberBodies {properties : List Property} {refs : List Body}
    (hrefs : ∀ b ∈ refs, b.IsPart) : ∀ m ∈ memberBodies properties refs, m.entry.IsPart := by
  intro m hm
  obtain ⟨p, hp, rfl⟩ := List.mem_map.mp hm
  have hvalue : p.2.IsSegment := (hrefs p.2 (List.of_mem_zip hp).2).segment
  dsimp only
  exact isPart_entry (isSegment_jsonLiteral p.1.key) hvalue

/-- The members of an object compare as their values do. -/
theorem memberBodies_forall₂ {properties : List Property} {refs : List Body}
    (hlen : properties.length = refs.length) (hrefs : ∀ b ∈ refs, b.IsPart)
    {words : String → Language Char} {env : Node → Language Char}
    {R : Language Char → Language Char → Prop}
    (hR : ∀ {key value value' : Language Char}, R value value' →
      R (entryForm key value) (entryForm key value'))
    (h : ∀ p ∈ nodeParts (properties.map (·.value)) refs, R (p.2.language words) (p.1.language env)) :
    List.Forall₂ (fun m m' : Language Char × Bool => R m.1 m'.1 ∧ m.2 = m'.2)
      ((memberBodies properties refs).map fun m => (m.entry.language words, m.required))
      (properties.map fun p =>
        (entryForm (Lexeme.word (Json.stringText p.key)) (env (.shape p.value)), p.required)) := by
  have hproperties := List.map_fst_zip (Nat.le_of_eq hlen)
  conv => rhs; rw [← hproperties]
  rw [memberBodies, List.map_map, List.map_map, List.forall₂_map_left_iff,
    List.forall₂_map_right_iff]
  refine List.forall₂_same.mpr fun p hp => ⟨?_, rfl⟩
  have hseg : p.2.IsSegment := (hrefs p.2 (List.of_mem_zip hp).2).segment
  have hvalue : R (p.2.language words) (env (.shape p.1.value)) := by
    refine h (.node (.shape p.1.value), p.2) (List.mem_map.mpr ⟨(p.1.value, p.2), ?_, rfl⟩)
    rw [List.zip_map_left]
    exact List.mem_map.mpr ⟨p, hp, rfl⟩
  dsimp only [Function.comp_apply]
  rw [language_entry (isSegment_jsonLiteral p.1.key) hseg, jsonLiteral, Body.language_literal]
  exact hR hvalue

/-- The undeclared members of an object, and the references that stand for key and value. -/
def additionalParts : Option ShapeId → Option (Body × Body) → List (Goal × Body)
  | some id, some (key, ref) => [(.terminal (.string {}), key), (.node (.shape id), ref)]
  | _, _ => []

theorem rel_flip {α β : Type*} {R : α → β → Prop} {a : Option α} {b : Option β}
    (h : Option.Rel R a b) : Option.Rel (fun b a => R a b) b a := by
  cases h with
  | none => exact .none
  | some h => exact .some h

theorem additional_rel {additional : Option ShapeId} {extra : Option (Body × Body)}
    (hextra : extra.isSome = additional.isSome) (hparts : ∀ e ∈ extra, e.1.IsPart ∧ e.2.IsPart)
    {words : String → Language Char} {env : Node → Language Char}
    {R : Language Char → Language Char → Prop}
    (hR : ∀ {key key' value value' : Language Char}, R key key' → R value value' →
      R (entryForm key value) (entryForm key' value'))
    (h : ∀ p ∈ additionalParts additional extra, R (p.2.language words) (p.1.language env)) :
    Option.Rel R ((extra.map fun e => entry e.1 e.2).map (·.language words))
      (additional.map fun id => entryForm (Terminal.string {}).language (env (.shape id))) := by
  match additional, extra with
  | none, none => exact .none
  | some id, some (key, ref) =>
    obtain ⟨hkey, hvalue⟩ := hparts _ rfl
    have heq : (entry key ref).language words =
        entryForm (key.language words) (ref.language words) :=
      language_entry hkey.segment hvalue.segment
    obtain ⟨hk, h⟩ := of_parts_cons h
    have hentry := hR hk (of_parts_cons h).1
    rw [← heq] at hentry
    exact .some hentry
  | none, some _ => simp at hextra
  | some _, none => simp at hextra

/-- An object. -/
theorem translates_object {id : ShapeId} {shape : ObjectShape}
    (h : shapes.get? id = some (.object shape)) (hin : inner.IsSegment) (hout : outer.IsSegment)
    {refs : List Body} (hlen : shape.properties.length = refs.length)
    (hrefs : ∀ b ∈ refs, b.IsPart) {extra : Option (Body × Body)}
    (hextra : extra.isSome = shape.additional.isSome)
    (hparts : ∀ e ∈ extra, e.1.IsPart ∧ e.2.IsPart) :
    Translates shapes
      (blankParts shape.layout inner outer ++
        (additionalParts shape.additional extra ++
          nodeParts (shape.properties.map (·.value)) refs))
      (.node (.shape id))
      (objectBody inner outer (memberBodies shape.properties refs)
        (extra.map fun e => entry e.1 e.2)) := by
  have hadd : ∀ x ∈ extra.map fun e => entry e.1 e.2, x.IsSegment := by
    intro x hx
    obtain ⟨e, he, rfl⟩ := Option.map_eq_some_iff.mp hx
    exact (isPart_entry (hparts e he).1.segment (hparts e he).2.segment).segment
  intro words env
  rw [unfolded_shape h, language_objectBody hin hout (isPart_memberBodies hrefs) hadd]
  constructor
  · intro hp
    obtain ⟨hinner, houter, hp⟩ := of_blankParts hp
    rw [List.forall_mem_append] at hp
    exact objectForm_mono hinner houter
      (memberBodies_forall₂ hlen hrefs (entryForm_mono le_rfl) hp.2)
      (additional_rel hextra hparts entryForm_mono hp.1)
  · intro hp
    obtain ⟨hinner, houter, hp⟩ := of_blankParts (R := fun a b => b ≤ a) hp
    rw [List.forall_mem_append] at hp
    have hmembers := memberBodies_forall₂ (R := fun a b => b ≤ a) hlen hrefs
      (entryForm_mono le_rfl) hp.2
    have hrel := additional_rel (R := fun a b => b ≤ a) hextra hparts
      (fun hk hv => entryForm_mono hk hv) hp.1
    exact objectForm_mono hinner houter (hmembers.flip.imp fun _ _ hm => ⟨hm.1, hm.2.symm⟩)
      (rel_flip hrel)

end

/-! ## Free-form values -/

section

variable {inner outer nested : Body} {layout : Layout}

theorem translates_freeList (hin : inner.IsSegment) (hout : outer.IsSegment) (hn : nested.IsPart) :
    Translates shapes (blankParts layout inner outer ++ [(.node .line, nested)])
      (.freeList layout) (arrayBody inner outer [] nested 0 none) := by
  intro words env
  rw [language_arrayBody hin hout (by simp) hn (Nat.zero_le 0) (by simp)]
  constructor
  · intro hp
    obtain ⟨hinner, houter, hp⟩ := of_blankParts hp
    exact listForm_mono hinner houter .nil (of_parts_cons hp).1
  · intro hp
    obtain ⟨hinner, houter, hp⟩ := of_blankParts (R := fun a b => b ≤ a) hp
    have hnested : env .line ≤ nested.language words := hp _ List.mem_cons_self
    show listForm layout.descend.blanks layout.blanks [] (env .line) 0 none ≤ _
    exact listForm_mono hinner houter .nil hnested

theorem translates_freeObject (hin : inner.IsSegment) (hout : outer.IsSegment) {key : Body}
    (hk : key.IsPart) (hn : nested.IsPart) :
    Translates shapes
      (blankParts layout inner outer ++ [(.terminal (.string {}), key), (.node .line, nested)])
      (.freeObject layout) (objectBody inner outer [] (some (entry key nested))) := by
  have hentry : ∀ x ∈ some (entry key nested), x.IsSegment := by
    rintro x ⟨⟩
    exact (isPart_entry hk.segment hn.segment).segment
  intro words env
  rw [language_objectBody hin hout (by simp) hentry, Option.map_some,
    language_entry hk.segment hn.segment]
  constructor
  · intro hp
    obtain ⟨hinner, houter, hp⟩ := of_blankParts hp
    obtain ⟨hkey, hp⟩ := of_parts_cons hp
    exact objectForm_mono hinner houter .nil
      (.some (entryForm_mono hkey (hp _ List.mem_cons_self)))
  · intro hp
    obtain ⟨hinner, houter, hp⟩ := of_blankParts (R := fun a b => b ≤ a) hp
    obtain ⟨hkey, hp⟩ := of_parts_cons (R := fun a b => b ≤ a) hp
    exact objectForm_mono hinner houter .nil
      (.some (entryForm_mono hkey (hp _ List.mem_cons_self)))

/-- The parts of any JSON value, and the references that stand for them. -/
def jsonParts (layout : Layout) (string number boolean null list map : Body) :
    List (Goal × Body) :=
  [(.terminal (.string {}), string), (.terminal (.number true), number),
   (.terminal .boolean, boolean), (.terminal .null, null), (.freeList layout, list),
   (.freeObject layout, map)]

theorem translates_json (string number boolean null list map : Body) :
    Translates shapes (jsonParts layout string number boolean null list map) (.json layout)
      ((choice [string, number, boolean, null, list, map]).group .once) := by
  intro words env
  have hsum : ((choice [string, number, boolean, null, list, map]).group .once).language words =
      string.language words + number.language words + boolean.language words +
        null.language words + list.language words + map.language words := by
    ext w
    rw [Body.language_group, Count.power_once, mem_choice]
    simp only [Language.mem_add, List.mem_cons, List.not_mem_nil, or_false, exists_eq_or_imp,
      exists_eq_left, or_assoc]
  rw [hsum]
  constructor
  · intro hp
    simp only [jsonParts, List.forall_mem_cons] at hp
    obtain ⟨hs, hn, hb, hnull, hl, hm, -⟩ := hp
    exact add_le_add (add_le_add (add_le_add (add_le_add (add_le_add hs hn) hb) hnull) hl) hm
  · intro hp
    simp only [jsonParts, List.forall_mem_cons] at hp
    obtain ⟨hs, hn, hb, hnull, hl, hm, -⟩ := hp
    exact add_le_add (add_le_add (add_le_add (add_le_add (add_le_add hs hn) hb) hnull) hl) hm

end

/-! ## Single lines -/

/-- Without line breaks the depth does not matter. -/
theorem Layout.blanks_eq_of_newLines_eq_false {l l' : Layout} (h : l.newLines = false)
    (h' : l'.newLines = false) : l.blanks = l'.blanks := by
  ext w
  simp [Layout.mem_blanks, h, h']

theorem freeList_eq_of_newLines_eq_false {l l' : Layout} (h : l.newLines = false)
    (h' : l'.newLines = false) : freeList l = freeList l' := by
  have hinner : l.descend.blanks = l'.descend.blanks := Layout.blanks_eq_of_newLines_eq_false h h'
  funext nested
  rw [freeList, freeList, hinner, Layout.blanks_eq_of_newLines_eq_false h h']

theorem freeObject_eq_of_newLines_eq_false {l l' : Layout} (h : l.newLines = false)
    (h' : l'.newLines = false) : freeObject l = freeObject l' := by
  have hinner : l.descend.blanks = l'.descend.blanks := Layout.blanks_eq_of_newLines_eq_false h h'
  funext nested
  rw [freeObject, freeObject, hinner, Layout.blanks_eq_of_newLines_eq_false h h']

theorem jsonForm_eq_of_newLines_eq_false {l l' : Layout} (h : l.newLines = false)
    (h' : l'.newLines = false) : jsonForm l = jsonForm l' := by
  funext nested
  rw [jsonForm, jsonForm, freeList_eq_of_newLines_eq_false h h',
    freeObject_eq_of_newLines_eq_false h h']

end SchemaGrammar
