import SchemaGrammar.Proofs.ContainerBody
import SchemaGrammar.Proofs.TerminalBody

/-!
# The names that bodies mention

A rule depends on others through the names in its body. Two lists are read off a body: all names
that it mentions, and those that it may begin with, its heads. The heads are counted generously: a
sequence begins with whatever comes before its first item that surely matches a character, a literal
or a character class that is matched once. Lists, objects and strings begin with such a literal, so
they have no heads at all.

Both lists are determined by the text of a readable body. This is what makes it possible to follow
names through a table in which rules are shared by their text.

## Main definitions

* `Body.names`, `Body.heads`: the names in a body, and those that it may begin with.
* `Body.NamesIn`: all names in a body are known.

## Main results

* `Body.names_congr`: bodies of equal text have the same names and heads.
* `namesIn_arrayBody`, `namesIn_objectBody`, `namesIn_terminal`: what containers and leaves mention.
* `heads_arrayBody`, `heads_objectBody`, `heads_stringBody`: bodies that begin with a literal.
-/

namespace SchemaGrammar

namespace Grammar

/-! ## Names and heads -/

mutual

/-- The names of rules in an item. -/
def Item.names : Item → List String
  | .literal _ _ | .chars _ _ => []
  | .rule name _ => [name]
  | .group _ choices _ => choicesNames choices

/-- The names of rules in a sequence. -/
def sequenceNames : List Item → List String
  | [] => []
  | i :: items => i.names ++ sequenceNames items

/-- The names of rules in a choice. -/
def choicesNames : List (List Item) → List String
  | [] => []
  | items :: choices => sequenceNames items ++ choicesNames choices

end

/-- Whether an item surely matches a character. -/
def Item.isSolid : Item → Bool
  | .literal text .once => text ≠ ""
  | .chars _ .once => true
  | _ => false

mutual

/-- The names that an item may begin with. -/
def Item.heads : Item → List String
  | .literal _ _ | .chars _ _ => []
  | .rule name _ => [name]
  | .group _ choices _ => choicesHeads choices

/-- The names that a sequence may begin with: those before the first solid item. -/
def sequenceHeads : List Item → List String
  | [] => []
  | i :: items => if i.isSolid then [] else i.heads ++ sequenceHeads items

/-- The names that a choice may begin with. -/
def choicesHeads : List (List Item) → List String
  | [] => []
  | items :: choices => sequenceHeads items ++ choicesHeads choices

end

/-- The names of rules in a body. -/
def Body.names (b : Body) : List String := choicesNames b.choices

/-- The names that a body may begin with. -/
def Body.heads (b : Body) : List String := choicesHeads b.choices

theorem mem_sequenceNames {items : List Item} {n : String} :
    n ∈ sequenceNames items ↔ ∃ i ∈ items, n ∈ i.names := by
  induction items with
  | nil => simp [sequenceNames]
  | cons i items ih => simp [sequenceNames, ih]

theorem mem_choicesNames {choices : List (List Item)} {n : String} :
    n ∈ choicesNames choices ↔ ∃ items ∈ choices, n ∈ sequenceNames items := by
  induction choices with
  | nil => simp [choicesNames]
  | cons items choices ih => simp [choicesNames, ih]

mutual

theorem Item.heads_subset_names : (i : Item) → i.heads ⊆ i.names
  | .literal _ _ => List.Subset.refl _
  | .chars _ _ => List.Subset.refl _
  | .rule _ _ => List.Subset.refl _
  | .group _ choices _ => choicesHeads_subset_names choices

theorem sequenceHeads_subset_names : (items : List Item) → sequenceHeads items ⊆ sequenceNames items
  | [] => List.Subset.refl _
  | i :: items => by
    rw [sequenceHeads, sequenceNames]
    split_ifs
    · exact List.nil_subset _
    · exact List.append_subset_of_subset_of_subset
        (List.subset_append_of_subset_left _ i.heads_subset_names)
        (List.subset_append_of_subset_right _ (sequenceHeads_subset_names items))

theorem choicesHeads_subset_names :
    (choices : List (List Item)) → choicesHeads choices ⊆ choicesNames choices
  | [] => List.Subset.refl _
  | items :: choices =>
    List.append_subset_of_subset_of_subset
      (List.subset_append_of_subset_left _ (sequenceHeads_subset_names items))
      (List.subset_append_of_subset_right _ (choicesHeads_subset_names choices))

end

theorem Body.heads_subset_names (b : Body) : b.heads ⊆ b.names :=
  choicesHeads_subset_names b.choices

@[simp] theorem Body.heads_literal (text : String) : (Body.literal text).heads = [] :=
  List.subset_nil.mp (Body.heads_subset_names _)

/-! ## Names and heads are read off the text -/

theorem Item.isSolid_loosened (i : Item) : i.loosened.isSolid = i.isSolid := by
  cases i <;> simp [Item.loosened, Item.isSolid]

mutual

theorem Item.names_loosened : (i : Item) → i.loosened.names = i.names ∧ i.loosened.heads = i.heads
  | .literal _ _ => by simp [Item.loosened]
  | .chars _ _ => by simp [Item.loosened]
  | .rule _ _ => by simp [Item.loosened]
  | .group _ choices _ => by
    obtain ⟨hn, hh⟩ := choicesNames_loosened choices
    simp [Item.loosened, Item.names, Item.heads, hn, hh]

theorem sequenceNames_loosened : (items : List Item) →
    sequenceNames (loosenedSequence items) = sequenceNames items ∧
      sequenceHeads (loosenedSequence items) = sequenceHeads items
  | [] => ⟨rfl, rfl⟩
  | i :: items => by
    obtain ⟨hn, hh⟩ := i.names_loosened
    obtain ⟨hns, hhs⟩ := sequenceNames_loosened items
    simp [loosenedSequence, sequenceNames, sequenceHeads, hn, hh, hns, hhs, i.isSolid_loosened]

theorem choicesNames_loosened : (choices : List (List Item)) →
    choicesNames (loosenedChoices choices) = choicesNames choices ∧
      choicesHeads (loosenedChoices choices) = choicesHeads choices
  | [] => ⟨rfl, rfl⟩
  | items :: choices => by
    obtain ⟨hn, hh⟩ := sequenceNames_loosened items
    obtain ⟨hns, hhs⟩ := choicesNames_loosened choices
    simp [loosenedChoices, choicesNames, choicesHeads, hn, hh, hns, hhs]

end

theorem Body.names_loosened (b : Body) :
    b.loosened.names = b.names ∧ b.loosened.heads = b.heads :=
  choicesNames_loosened b.choices

/-- **Bodies of equal text have the same names and heads.** -/
theorem Body.names_congr {a b : Body} (ha : a.Readable) (hb : b.Readable) (h : a.text = b.text) :
    a.names = b.names ∧ a.heads = b.heads := by
  have hl : some a.loosened = some b.loosened := by
    rw [← readBody_text ha, h, readBody_text hb]
  rw [← a.names_loosened.1, ← a.names_loosened.2, Option.some.inj hl, b.names_loosened.1,
    b.names_loosened.2]
  exact ⟨rfl, rfl⟩

/-! ## What combinators mention -/

/-- All names in a body are known. -/
def Body.NamesIn (known : String → Prop) (b : Body) : Prop := ∀ n ∈ b.names, known n

section

variable {known : String → Prop} {a b : Body} {parts : List Body}

theorem Body.NamesIn.mono {known' : String → Prop} (h : b.NamesIn known)
    (hk : ∀ n, known n → known' n) : b.NamesIn known' :=
  fun n hn => hk n (h n hn)

theorem namesIn_literal (text : String) : (Body.literal text).NamesIn known :=
  fun _ hn => absurd hn List.not_mem_nil

theorem namesIn_jsonLiteral (text : String) : (jsonLiteral text).NamesIn known :=
  namesIn_literal _

theorem namesIn_rule {name : String} (h : known name) : (Body.rule name).NamesIn known :=
  fun _ hn => List.mem_singleton.mp hn ▸ h

theorem namesIn_item {i : Item} (h : ∀ n ∈ i.names, known n) : (Body.item i).NamesIn known := by
  intro n hn
  simp only [Body.names, Body.item, choicesNames, sequenceNames, List.append_nil] at hn
  exact h n hn

theorem namesIn_group (h : b.NamesIn known) (count : Count) : (b.group count).NamesIn known :=
  namesIn_item h

theorem namesIn_counted (h : b.NamesIn known) (count : Count) :
    (b.counted count).NamesIn known := by
  unfold Body.counted
  split
  · next name hb =>
    refine namesIn_item fun n hn => h n ?_
    rw [Body.names, hb]
    simpa [Item.names, choicesNames, sequenceNames] using hn
  · exact namesIn_group h count

theorem namesIn_append (ha : a.NamesIn known) (hb : b.NamesIn known) : (a ++ b).NamesIn known := by
  have happend : ∀ xs ys : List (List Item), ∀ n ∈ choicesNames (Body.appendChoices xs ys),
      n ∈ choicesNames xs ∨ n ∈ choicesNames ys := by
    intro xs ys n hn
    fun_induction Body.appendChoices xs ys with
    | case1 ys => exact .inr hn
    | case2 items => exact .inl hn
    | case3 items next after =>
      simp only [choicesNames, mem_sequenceNames, List.mem_append] at hn ⊢
      rcases hn with ⟨i, hi | hi, hn⟩ | hn
      · exact .inl (.inl ⟨i, hi, hn⟩)
      · exact .inr (.inl ⟨i, hi, hn⟩)
      · exact .inr (.inr hn)
    | case4 items choices after _ _ ih =>
      rw [choicesNames, List.mem_append] at hn ⊢
      rcases hn with hn | hn
      · exact .inl (.inl hn)
      · exact (ih hn).imp_left .inr
  exact fun n hn => (happend a.choices b.choices n hn).elim (ha n) (hb n)

theorem namesIn_chain (h : ∀ p ∈ parts, p.NamesIn known) : (chain parts).NamesIn known := by
  induction parts using chain.induct with
  | case1 => exact fun n hn => absurd hn List.not_mem_nil
  | case2 b => exact h b List.mem_cons_self
  | case3 b rest hne ih =>
    rw [chain.eq_3 b rest hne]
    exact namesIn_append (h b List.mem_cons_self) (ih fun p hp => h p (List.mem_cons_of_mem b hp))

theorem namesIn_sequence (h : ∀ p ∈ parts, p.NamesIn known) : (sequence parts).NamesIn known :=
  namesIn_chain fun p hp => h p (List.mem_of_mem_filter hp)

theorem namesIn_choice (h : ∀ p ∈ parts, p.NamesIn known) : (choice parts).NamesIn known := by
  induction parts using choice.induct with
  | case1 => exact fun n hn => absurd hn List.not_mem_nil
  | case2 b => exact h b List.mem_cons_self
  | case3 b rest hne ih =>
    rw [choice.eq_3 b rest hne]
    intro n hn
    simp only [Body.names, Body.orElse, mem_choicesNames, List.mem_append] at hn
    obtain ⟨items, hi | hi, hn⟩ := hn
    · exact h b List.mem_cons_self n (mem_choicesNames.mpr ⟨items, hi, hn⟩)
    · exact ih (fun p hp => h p (List.mem_cons_of_mem b hp)) n
        (mem_choicesNames.mpr ⟨items, hi, hn⟩)

theorem namesIn_alternation (h : ∀ p ∈ parts, p.NamesIn known) :
    (alternation parts).NamesIn known := by
  have hkept : ∀ p ∈ distinct parts, p.NamesIn known := fun p hp => h p (mem_of_mem_distinct hp).1
  unfold alternation
  split
  · exact namesIn_literal ""
  · next only hd => exact hkept only (hd ▸ List.mem_cons_self)
  · exact namesIn_group (namesIn_choice hkept) _

theorem namesIn_followedBy (ha : a.NamesIn known) (hb : b.NamesIn known) (count : Count) :
    (followedBy a b count).NamesIn known := by
  have hpair : (chain [b, a]).NamesIn known := namesIn_chain (by simp [ha, hb])
  exact namesIn_sequence (by simp [ha, namesIn_group hpair])

theorem namesIn_repetition (hb : b.NamesIn known) {separator : Option Body}
    (hs : ∀ s ∈ separator, s.NamesIn known) (least : Nat) (most : Option Nat) :
    (repetition b separator least most).NamesIn known := by
  have hunbounded : (unbounded b least separator).NamesIn known := by
    cases separator with
    | none =>
      simp only [unbounded]
      split <;> exact namesIn_group hb _
    | some s =>
      have hfollowed := namesIn_followedBy hb (hs s rfl)
      simp only [unbounded]
      split
      · exact namesIn_group (hfollowed _) _
      · exact hfollowed _
      · exact hfollowed _
  have hfixed : ∀ n, (fixed b n separator).NamesIn known := by
    intro n
    cases separator with
    | none => exact namesIn_group hb _
    | some s =>
      simp only [fixed]
      split
      · exact namesIn_sequence (by simp [hb, hs s rfl])
      · exact namesIn_followedBy hb (hs s rfl) _
  have hranged : ∀ most, (ranged b least most separator).NamesIn known := by
    intro most
    cases separator with
    | none => exact namesIn_group hb _
    | some s =>
      have hfollowed := namesIn_followedBy hb (hs s rfl)
      simp only [ranged]
      split
      · exact namesIn_group (hfollowed _) _
      · exact hfollowed _
  cases most with
  | none => exact hunbounded
  | some bound =>
    simp only [repetition]
    split_ifs
    · exact namesIn_literal ""
    · exact namesIn_group hb _
    · exact hb
    · exact hfixed _
    · exact hranged _

end

/-! ### What sequences mention -/

theorem sequenceNames_append (xs ys : List Item) :
    sequenceNames (xs ++ ys) = sequenceNames xs ++ sequenceNames ys := by
  induction xs with
  | nil => rfl
  | cons i xs ih => rw [List.cons_append, sequenceNames, sequenceNames, ih, List.append_assoc]

/-- A chain mentions what its parts mention. -/
theorem names_subset_chain {parts : List Body} (h : ∀ p ∈ parts, p.IsSegment) {b : Body}
    (hb : b ∈ parts) : b.names ⊆ (chain parts).names := by
  induction parts using chain.induct with
  | case1 => exact absurd hb List.not_mem_nil
  | case2 a =>
    rw [List.mem_singleton.mp hb]
    exact List.Subset.refl _
  | case3 a rest hne ih =>
    obtain ⟨hfirst, hrest⟩ := List.forall_mem_cons.mp h
    rw [chain.eq_3 a rest hne]
    obtain ⟨xs, rfl, -⟩ := hfirst
    obtain ⟨ys, hys, -⟩ := isSegment_chain hrest
    have hnames : (items xs ++ chain rest).names = (items xs).names ++ (chain rest).names := by
      rw [hys]
      show sequenceNames (xs ++ ys) ++ [] = (sequenceNames xs ++ []) ++ (sequenceNames ys ++ [])
      simp [sequenceNames_append]
    rw [hnames]
    rcases List.mem_cons.mp hb with rfl | hb
    · exact List.subset_append_left _ _
    · exact List.subset_append_of_subset_right _ (ih hrest hb)

theorem names_subset_sequence {parts : List Body} (h : ∀ p ∈ parts, p.IsSegment) {b : Body}
    (hb : b ∈ parts) (hvisible : b.isBlank = false) : b.names ⊆ (sequence parts).names :=
  names_subset_chain (fun p hp => h p (List.mem_of_mem_filter hp))
    (List.mem_filter.mpr ⟨hb, by simp [hvisible]⟩)

/-! ## Containers -/

theorem namesIn_optionalBlank {known : String → Prop} : optionalBlank.NamesIn known :=
  namesIn_item fun _ hn => absurd hn List.not_mem_nil

section

variable {known : String → Prop} {inner outer separator : Body}

theorem namesIn_entry {key value : Body} (hk : key.NamesIn known) (hv : value.NamesIn known) :
    (entry key value).NamesIn known :=
  namesIn_sequence (by simp [hk, hv, namesIn_literal, namesIn_optionalBlank])

theorem namesIn_enclose {opening closing : String} {body : Body} (hi : inner.NamesIn known)
    (hb : body.NamesIn known) (ho : outer.NamesIn known) :
    (enclose opening closing inner body outer).NamesIn known := by
  unfold enclose
  split
  · exact namesIn_sequence (by simp [ho, namesIn_literal])
  · exact namesIn_sequence (by simp [hi, hb, ho, namesIn_literal])

theorem namesIn_arrayElements (hs : separator.NamesIn known) {leading : List Body}
    (hl : ∀ b ∈ leading, b.NamesIn known) {item : Body} (hi : item.NamesIn known) (least : Nat)
    (most : Option Nat) : (arrayElements separator leading item least most).NamesIn known := by
  have hpair : (sequence [separator, item]).NamesIn known := namesIn_sequence (by simp [hs, hi])
  unfold arrayElements
  split
  · exact namesIn_repetition hi (by simp [hs]) _ _
  · exact namesIn_sequence (by
      simp [namesIn_chain (forall_mem_separated hs hl), namesIn_repetition hpair])

theorem namesIn_arrayBody (hin : inner.NamesIn known) (hout : outer.NamesIn known)
    {leading : List Body} (hl : ∀ b ∈ leading, b.NamesIn known) {item : Body}
    (hi : item.NamesIn known) (least : Nat) (most : Option Nat) :
    (arrayBody inner outer leading item least most).NamesIn known := by
  have hcomma : (sequence [.literal ",", inner]).NamesIn known :=
    namesIn_sequence (by simp [hin, namesIn_literal])
  exact namesIn_enclose hin (namesIn_arrayElements hcomma hl hi least most) hout

/-- A list mentions what its items mention. -/
theorem names_subset_arrayBody (hin : inner.IsSegment) (hout : outer.IsSegment) {item : Body}
    (hi : item.IsPart) : item.names ⊆ (arrayBody inner outer [] item 0 none).names := by
  have hcomma := isSegment_comma hin
  have hpair : (chain [sequence [.literal ",", inner], item]).IsSegment :=
    isSegment_chain (by simp [hcomma, hi.segment])
  have hlater := (Body.isPart_group hpair.readable .many).segment
  have hfirst : item.names ⊆ (followedBy item (sequence [.literal ",", inner]) .many).names :=
    names_subset_sequence (by simp [hi.segment, hlater]) List.mem_cons_self hi.visible
  have helements : (arrayElements (sequence [.literal ",", inner]) [] item 0 none).IsPart := by
    show (repetition item (some (sequence [.literal ",", inner])) 0 none).IsPart
    exact isPart_repetition hi (by simp [hcomma]) (by simp)
  have hgroup : item.names ⊆
      (arrayElements (sequence [.literal ",", inner]) [] item 0 none).names := by
    show item.names ⊆ choicesNames [[_]]
    simpa [choicesNames, sequenceNames, Item.names, Body.names] using hfirst
  rw [arrayBody, enclose, if_neg (by simp [helements.visible])]
  refine List.Subset.trans hgroup (names_subset_sequence ?_ (by simp) helements.visible)
  simp [hin, hout, helements.segment, Body.isSegment_literal]

theorem namesIn_objectMembers (hs : separator.NamesIn known) {members : List Member}
    (hm : ∀ m ∈ members, m.entry.NamesIn known) {additional : Option Body}
    (ha : ∀ x ∈ additional, x.NamesIn known) :
    (objectMembers members additional separator).NamesIn known := by
  have hP : Composes (Body.NamesIn known) := ⟨namesIn_chain, namesIn_group⟩
  rcases required_cases members with hopt | ⟨optional, first, later, rfl, hfirst, hopt⟩
  · rw [objectMembers_of_optional hopt]
    split_ifs
    · exact fun n hn => absurd hn List.not_mem_nil
    · exact namesIn_group (namesIn_choice (hP.forall_objectStarts hs ha hm)) _
  · rw [objectMembers_of_required hfirst hopt]
    exact namesIn_sequence (hP.forall_requiredParts hs ha hm)

theorem namesIn_objectBody (hin : inner.NamesIn known) (hout : outer.NamesIn known)
    {members : List Member} (hm : ∀ m ∈ members, m.entry.NamesIn known) {additional : Option Body}
    (ha : ∀ x ∈ additional, x.NamesIn known) :
    (objectBody inner outer members additional).NamesIn known := by
  have hcomma : (sequence [.literal ",", inner]).NamesIn known :=
    namesIn_sequence (by simp [hin, namesIn_literal])
  exact namesIn_enclose hin (namesIn_objectMembers hcomma hm ha) hout

end

/-! ## What bodies begin with -/

@[simp] theorem Body.heads_group (b : Body) (count : Count) : (b.group count).heads = b.heads := by
  simp [Body.heads, Body.group, Body.item, choicesHeads, sequenceHeads, Item.heads, Item.isSolid]

theorem choicesHeads_append (xs ys : List (List Item)) :
    choicesHeads (xs ++ ys) = choicesHeads xs ++ choicesHeads ys := by
  induction xs with
  | nil => rfl
  | cons items xs ih => rw [List.cons_append, choicesHeads, choicesHeads, ih, List.append_assoc]

/-- A choice may begin with what its alternatives begin with. -/
theorem heads_choice (parts : List Body) : (choice parts).heads = parts.flatMap Body.heads := by
  induction parts using choice.induct with
  | case1 => rfl
  | case2 b => simp [choice]
  | case3 b rest hne ih =>
    rw [choice.eq_3 b rest hne, List.flatMap_cons, ← ih]
    exact choicesHeads_append b.choices (choice rest).choices

theorem mem_heads_alternation {parts : List Body} {n : String}
    (h : n ∈ (alternation parts).heads) : ∃ p ∈ parts, n ∈ p.heads := by
  have hkept : ∀ p ∈ distinct parts, p ∈ parts := fun p hp => (mem_of_mem_distinct hp).1
  unfold alternation at h
  split at h
  · exact absurd h List.not_mem_nil
  · next only hd => exact ⟨only, hkept only (hd ▸ List.mem_cons_self), h⟩
  · rw [Body.heads_group, heads_choice, List.mem_flatMap] at h
    obtain ⟨p, hp, hn⟩ := h
    exact ⟨p, hkept p hp, hn⟩

/-- A sequence that begins with a literal has no heads. -/
theorem heads_sequence_literal {text : String} (ht : text ≠ "") {rest : List Body}
    (h : ∀ b ∈ rest, b.IsSegment) : (sequence (.literal text :: rest)).heads = [] := by
  have hlead : ∀ list : List Item, (items (.literal text .once :: list)).heads = [] := by
    intro list
    simp [Body.heads, items, choicesHeads, sequenceHeads, Item.isSolid, ht]
  have hvisible := (Body.isPart_literal ht).visible
  have hseg := isSegment_chain fun b (hb : b ∈ rest.filter (!·.isBlank)) =>
    h b (List.mem_of_mem_filter hb)
  rw [sequence, List.filter_cons_of_pos (by simp [hvisible])]
  cases hrest : rest.filter (!·.isBlank) with
  | nil => exact hlead []
  | cons b others =>
    rw [hrest] at hseg
    obtain ⟨list, hlist, -⟩ := hseg
    rw [chain, hlist]
    · exact hlead list
    · simp

theorem heads_enclose {opening closing : String} (ht : opening ≠ "") {inner body outer : Body}
    (hi : inner.IsSegment) (hb : body.IsSegment) (ho : outer.IsSegment) :
    (enclose opening closing inner body outer).heads = [] := by
  unfold enclose
  split
  · exact heads_sequence_literal ht (by simp [ho, Body.isSegment_literal])
  · exact heads_sequence_literal ht (by simp [hi, hb, ho, Body.isSegment_literal])

theorem heads_arrayBody {inner outer : Body} (hin : inner.IsSegment) (hout : outer.IsSegment)
    {leading : List Body} (hl : ∀ b ∈ leading, b.IsPart) {item : Body} (hi : item.IsPart)
    (least : Nat) (most : Option Nat) :
    (arrayBody inner outer leading item least most).heads = [] :=
  heads_enclose (by decide) hin (isSegment_arrayElements (isSegment_comma hin) hl hi) hout

theorem heads_objectBody {inner outer : Body} (hin : inner.IsSegment) (hout : outer.IsSegment)
    {members : List Member} (hm : ∀ m ∈ members, m.entry.IsPart) {additional : Option Body}
    (ha : ∀ x ∈ additional, x.IsSegment) : (objectBody inner outer members additional).heads = [] :=
  heads_enclose (by decide) hin
    (isSegment_objectMembers (isSegment_comma hin) (fun m h => (hm m h).segment) ha) hout

theorem heads_stringBody {charRule : Body} (h : charRule.IsPart) (bounds : LengthBounds) :
    (stringBody bounds charRule).heads = [] := by
  unfold stringBody
  split_ifs
  · exact heads_sequence_literal (by decide)
      (by simp [Body.isSegment_counted h.segment, isSegment_quote])
  · rfl
  · exact heads_sequence_literal (by decide)
      (by simp [isSegment_repetition h.segment noSeparator, isSegment_quote])

theorem namesIn_stringBody {known : String → Prop} {charRule : Body} (h : charRule.NamesIn known)
    (bounds : LengthBounds) : (stringBody bounds charRule).NamesIn known := by
  unfold stringBody
  split_ifs
  · exact namesIn_sequence (by simp [quote, namesIn_literal, namesIn_counted h])
  · exact namesIn_literal _
  · exact namesIn_sequence (by simp [quote, namesIn_literal, namesIn_repetition h])

end Grammar

open Grammar

/-! ## Leaves -/

theorem Layout.namesIn_body {known : String → Prop} (l : Layout) : l.body.NamesIn known := by
  have hrepeated : ∀ text n, (repeatedLiteral text n).NamesIn known := by
    intro text n
    unfold repeatedLiteral
    dsimp only
    split_ifs
    · exact namesIn_item fun _ hn => absurd hn List.not_mem_nil
    · exact namesIn_literal _
  have hindent : l.indent.NamesIn known := by
    rw [Layout.indent]
    split_ifs
    · exact fun n hn => absurd hn List.not_mem_nil
    · exact namesIn_alternation (by simp [hrepeated])
  have hbreak : (Body.item (one (oneOf "\n"))).NamesIn known :=
    namesIn_item fun _ hn => absurd hn List.not_mem_nil
  have hline : (sequence [.item (one (oneOf "\n")), l.indent]).NamesIn known :=
    namesIn_sequence (by simp [hbreak, hindent])
  rw [Layout.body]
  split_ifs
  · exact namesIn_choice (by simp [namesIn_optionalBlank, hline])
  · exact namesIn_optionalBlank

/-- A leaf that is not a string mentions no rule. -/
theorem Terminal.names_body {t : Terminal} (h : t.isString = false) :
    (t.body .empty).names = [] := by
  cases t with
  | string bounds => simp [isString] at h
  | whitespace layout =>
    have hnone : layout.body.NamesIn fun _ => False := layout.namesIn_body
    exact List.eq_nil_iff_forall_not_mem.mpr hnone
  | number fractional => cases fractional <;> rfl
  | format f => cases f <;> decide
  | _ => rfl

end SchemaGrammar
