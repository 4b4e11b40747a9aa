import Mathlib.Algebra.BigOperators.Group.List.Basic
import SchemaGrammar.Proofs.ReadBack
import SchemaGrammar.Terminal.Body

/-!
# Languages of combined bodies

What sequences, choices and repetitions match. Bodies are put together by text, without brackets
wherever that is safe. It is safe for **segments**, bodies that are a single sequence of items: a
segment can stand next to anything and be counted in brackets, and its language is not changed by
what stands around it. Every body that the combinators are applied to is a segment.

Parts whose text is blank are left out of sequences, and alternatives whose text has been met are
left out of choices. Since the text of a readable body determines its language
(`Body.language_congr`), neither changes what is matched.

## Main definitions

* `Body.IsSegment`: a body that is one readable sequence.
* `joined`: words of several languages in turn, with a separator between them.

## Main results

* `language_sequence`, `mem_alternation`: sequences are products, choices are unions.
* `mem_repetition`: a repetition matches exactly the admitted numbers of words.
-/

namespace SchemaGrammar

namespace Grammar

variable {env : String → Language Char}

/-! ## Words in a row -/

/-- Words of the given languages one after the other, with a word of `s` between two of them. -/
def joined (s : Language Char) : List (Language Char) → Language Char
  | [] => 1
  | l :: rest => l * (rest.map (s * ·)).prod

@[simp] theorem joined_nil (s : Language Char) : joined s [] = 1 := rfl

theorem joined_cons (s l : Language Char) (rest : List (Language Char)) :
    joined s (l :: rest) = l * (rest.map (s * ·)).prod :=
  rfl

theorem joined_replicate_succ (s l : Language Char) (n : Nat) :
    joined s (List.replicate (n + 1) l) = l * (s * l) ^ n := by
  rw [List.replicate_succ, joined_cons, List.map_replicate, List.prod_replicate]

/-- Without a separator, words in a row are a power. -/
theorem joined_one_replicate (l : Language Char) (n : Nat) :
    joined 1 (List.replicate n l) = l ^ n := by
  cases n with
  | zero => rw [List.replicate_zero, joined_nil, pow_zero]
  | succ n => rw [joined_replicate_succ, one_mul, pow_succ']

theorem joined_cons_of_ne_nil {s l : Language Char} {rest : List (Language Char)} (h : rest ≠ []) :
    joined s (l :: rest) = l * s * joined s rest := by
  obtain ⟨l', rest, rfl⟩ := List.exists_cons_of_ne_nil h
  rw [joined_cons, joined_cons, List.map_cons, List.prod_cons]
  simp only [mul_assoc]

/-- Further words follow the leading ones, each after a separator. -/
theorem joined_append {s : Language Char} {leading : List (Language Char)} (h : leading ≠ [])
    (rest : List (Language Char)) :
    joined s (leading ++ rest) = joined s leading * (rest.map (s * ·)).prod := by
  obtain ⟨l, others, rfl⟩ := List.exists_cons_of_ne_nil h
  rw [List.cons_append, joined_cons, joined_cons, List.map_append, List.prod_append, mul_assoc]

/-! ## Counts -/

@[simp] theorem Count.power_once (l : Language Char) : Count.once.power l = l := by
  ext w
  simp [Count.mem_power, Count.Admits]

theorem Count.mem_power_optional {l : Language Char} {w : List Char} :
    w ∈ Count.optional.power l ↔ w = [] ∨ w ∈ l := by
  rw [Count.mem_power]
  constructor
  · rintro ⟨n, hn, hw⟩
    obtain rfl | rfl := Nat.le_one_iff_eq_zero_or_eq_one.mp hn
    · exact .inl (by simpa [Language.mem_one] using hw)
    · exact .inr (by simpa using hw)
  · rintro (rfl | hw)
    · exact ⟨0, Nat.zero_le 1, by simp [Language.mem_one]⟩
    · exact ⟨1, le_refl 1, by simpa using hw⟩

/-! ## Single items -/

@[simp] theorem Body.language_empty : Body.empty.language env = 1 := by
  simp [Body.language, Body.empty, choicesLanguage, sequenceLanguage]

@[simp] theorem Body.language_items (list : List Item) :
    (items list).language env = sequenceLanguage env list := by
  simp [Body.language, items, choicesLanguage]

@[simp] theorem Body.language_item (i : Item) : (Body.item i).language env = i.language env := by
  simp [Body.language, Body.item, choicesLanguage, sequenceLanguage]

@[simp] theorem Body.language_literal (text : String) :
    (Body.literal text).language env = {text.toList} := by
  rw [Body.literal, Body.language_item, Item.language, Count.power_once]

@[simp] theorem Body.language_noValue : Body.noValue.language env = 1 :=
  Body.language_literal ""

@[simp] theorem Body.language_rule (name : String) : (Body.rule name).language env = env name := by
  rw [Body.rule, Body.language_item, Item.language, Count.power_once]

@[simp] theorem Body.language_group (b : Body) (count : Count) :
    (b.group count).language env = count.power (b.language env) := by
  rw [Body.group, Body.language_item, Item.language, Body.language]

theorem Body.language_counted (b : Body) (count : Count) :
    (b.counted count).language env = count.power (b.language env) := by
  unfold Body.counted
  split
  · next name h =>
    have hb : b = .rule name := congrArg Body.mk h
    rw [hb, Body.language_rule, Body.language_item, Item.language]
  · exact Body.language_group b count

/-! ## Segments -/

/-- A body that is one sequence of readable items. -/
def Body.IsSegment (b : Body) : Prop := ∃ list, b = items list ∧ SequenceReadable list

theorem Body.IsSegment.readable {b : Body} (h : b.IsSegment) : b.Readable := by
  obtain ⟨list, rfl, hl⟩ := h
  exact ⟨List.cons_ne_nil _ _, hl, trivial⟩

theorem Body.isSegment_items {list : List Item} (h : ∀ i ∈ list, i.Readable) :
    (items list).IsSegment :=
  ⟨list, rfl, sequenceReadable_iff.mpr h⟩

theorem Body.isSegment_empty : Body.empty.IsSegment := ⟨[], rfl, trivial⟩

theorem Body.isSegment_item {i : Item} (h : i.Readable) : (Body.item i).IsSegment :=
  ⟨[i], rfl, h, trivial⟩

theorem Body.isSegment_literal (text : String) : (Body.literal text).IsSegment :=
  isSegment_item trivial

theorem Body.isSegment_rule {name : String} (h : IsName name) : (Body.rule name).IsSegment :=
  isSegment_item h

theorem Body.isSegment_group {b : Body} (h : b.Readable) (count : Count) :
    (b.group count).IsSegment :=
  isSegment_item h

theorem Body.isSegment_counted {b : Body} (h : b.IsSegment) (count : Count) :
    (b.counted count).IsSegment := by
  unfold Body.counted
  split
  · next name hb =>
    obtain ⟨list, rfl, hl⟩ := h
    obtain rfl : list = [.rule name .once] := by simpa [items] using hb
    exact isSegment_item hl.1
  · exact isSegment_group h.readable count

theorem sequenceLanguage_append (xs ys : List Item) :
    sequenceLanguage env (xs ++ ys) = sequenceLanguage env xs * sequenceLanguage env ys := by
  induction xs with
  | nil => rw [List.nil_append, sequenceLanguage, one_mul]
  | cons i xs ih => rw [List.cons_append, sequenceLanguage, sequenceLanguage, ih, mul_assoc]

theorem items_append (xs ys : List Item) : items xs ++ items ys = items (xs ++ ys) := rfl

theorem Body.IsSegment.append {a b : Body} (ha : a.IsSegment) (hb : b.IsSegment) :
    (a ++ b).IsSegment := by
  obtain ⟨xs, rfl, hx⟩ := ha
  obtain ⟨ys, rfl, hy⟩ := hb
  rw [items_append]
  refine isSegment_items fun i hi => ?_
  rcases List.mem_append.mp hi with hi | hi
  · exact sequenceReadable_iff.mp hx i hi
  · exact sequenceReadable_iff.mp hy i hi

theorem Body.IsSegment.language_append {a b : Body} (ha : a.IsSegment) (hb : b.IsSegment) :
    (a ++ b).language env = a.language env * b.language env := by
  obtain ⟨xs, rfl, -⟩ := ha
  obtain ⟨ys, rfl, -⟩ := hb
  rw [items_append, language_items, language_items, language_items, sequenceLanguage_append]

/-! ### Blank segments -/

/-- A blank body matches the empty text and nothing else. -/
theorem Body.Readable.language_of_isBlank {b : Body} (h : b.Readable) (hb : b.isBlank) :
    b.language env = 1 := by
  rcases Bool.or_eq_true_iff.mp hb with ht | ht
  · rw [Body.language_congr h isSegment_empty.readable (eq_of_beq ht), language_empty]
  · rw [Body.language_congr h (isSegment_literal "").readable (eq_of_beq ht), ← Body.noValue,
      language_noValue]

theorem Item.loosened_eq_literal {i : Item} {text : String} {count : Count}
    (h : i.loosened = .literal text count) : i = .literal text count := by
  cases i <;> simp_all [Item.loosened]

theorem loosenedSequence_eq_nil {list : List Item} (h : loosenedSequence list = []) :
    list = [] := by
  cases list with
  | nil => rfl
  | cons i list => simp [loosenedSequence] at h

theorem loosenedSequence_eq_literal {list : List Item} {text : String} {count : Count}
    (h : loosenedSequence list = [.literal text count]) : list = [.literal text count] := by
  cases list with
  | nil => simp [loosenedSequence] at h
  | cons i list =>
    rw [loosenedSequence, List.cons.injEq] at h
    rw [Item.loosened_eq_literal h.1, loosenedSequence_eq_nil h.2]

theorem loosenedChoices_eq_singleton {choices : List (List Item)} {list : List Item}
    (h : loosenedChoices choices = [list]) :
    ∃ list', choices = [list'] ∧ loosenedSequence list' = list := by
  match choices with
  | [] => simp [loosenedChoices] at h
  | [list'] => exact ⟨list', rfl, by simpa [loosenedChoices] using h⟩
  | _ :: _ :: _ => simp [loosenedChoices] at h

/-- A body is blank only if it has no item, or just the literal that is empty. -/
theorem Body.Readable.isBlank_iff {b : Body} (h : b.Readable) :
    b.isBlank ↔ b = items [] ∨ b = items [.literal "" .once] := by
  constructor
  · intro hb
    have hread := readBody_text h
    rcases Bool.or_eq_true_iff.mp hb with ht | ht
    · have hempty := readBody_text Body.isSegment_empty.readable
      rw [eq_of_beq ht, ← show Body.empty.text = "" from rfl, hempty, Option.some.injEq] at hread
      obtain ⟨list, hl, he⟩ := loosenedChoices_eq_singleton (congrArg Body.choices hread).symm
      exact .inl (congrArg Body.mk (hl.trans (by rw [loosenedSequence_eq_nil he])))
    · have hempty := readBody_text (Body.isSegment_literal "").readable
      rw [eq_of_beq ht, Body.noValue, hempty, Option.some.injEq] at hread
      obtain ⟨list, hl, he⟩ := loosenedChoices_eq_singleton (congrArg Body.choices hread).symm
      exact .inr (congrArg Body.mk (hl.trans (by rw [loosenedSequence_eq_literal he])))
  · rintro (rfl | rfl) <;> decide

theorem isBlank_items_iff {list : List Item} (h : SequenceReadable list) :
    (items list).isBlank ↔ list = [] ∨ list = [.literal "" .once] := by
  have hr : (items list).Readable := ⟨List.cons_ne_nil _ _, h, trivial⟩
  rw [hr.isBlank_iff]
  simp [items]

theorem Body.IsSegment.isBlank_append {a b : Body} (ha : a.IsSegment) (hb : b.IsSegment)
    (h : (a ++ b).isBlank) : a.isBlank ∧ b.isBlank := by
  have hab := ha.append hb
  obtain ⟨xs, rfl, hx⟩ := ha
  obtain ⟨ys, rfl, hy⟩ := hb
  rw [items_append] at h hab
  obtain ⟨zs, hz, hr⟩ := hab
  obtain rfl : xs ++ ys = zs := by simpa [items] using hz
  rw [isBlank_items_iff hr] at h
  rw [isBlank_items_iff hx, isBlank_items_iff hy]
  rcases h with h | h
  · obtain ⟨rfl, rfl⟩ := List.append_eq_nil_iff.mp h
    exact ⟨.inl rfl, .inl rfl⟩
  · rcases List.append_eq_singleton_iff.mp h with ⟨rfl, rfl⟩ | ⟨rfl, rfl⟩
    · exact ⟨.inl rfl, .inr rfl⟩
    · exact ⟨.inr rfl, .inl rfl⟩

/-! ### Parts -/

/-- A segment that is not blank, so it is never left out. -/
structure Body.IsPart (b : Body) : Prop where
  segment : b.IsSegment
  visible : b.isBlank = false

theorem Body.isPart_item {i : Item} (h : i.Readable) (hi : i ≠ .literal "" .once) :
    (Body.item i).IsPart := by
  refine ⟨isSegment_item h, Bool.eq_false_iff.mpr fun hb => ?_⟩
  have hr : SequenceReadable [i] := ⟨h, trivial⟩
  simpa [hi] using (isBlank_items_iff hr).mp hb

theorem Body.isPart_group {b : Body} (h : b.Readable) (count : Count) : (b.group count).IsPart :=
  isPart_item h (by simp)

theorem Body.isPart_rule {name : String} (h : IsName name) : (Body.rule name).IsPart :=
  isPart_item h (by simp)

theorem Body.isPart_literal {text : String} (h : text ≠ "") : (Body.literal text).IsPart :=
  isPart_item trivial (by simp [h])

/-! ## Sequences -/

theorem isSegment_chain {parts : List Body} (h : ∀ p ∈ parts, p.IsSegment) :
    (chain parts).IsSegment := by
  induction parts using chain.induct with
  | case1 => exact Body.isSegment_empty
  | case2 b => exact h b List.mem_cons_self
  | case3 b rest hne ih =>
    rw [chain.eq_3 b rest hne]
    exact (h b List.mem_cons_self).append (ih fun p hp => h p (List.mem_cons_of_mem b hp))

theorem language_chain {parts : List Body} (h : ∀ p ∈ parts, p.IsSegment) :
    (chain parts).language env = (parts.map (·.language env)).prod := by
  induction parts using chain.induct with
  | case1 => rw [chain, Body.language_empty, List.map_nil, List.prod_nil]
  | case2 b => rw [chain, List.map_cons, List.map_nil, List.prod_cons, List.prod_nil, mul_one]
  | case3 b rest hne ih =>
    have hrest : ∀ p ∈ rest, p.IsSegment := fun p hp => h p (List.mem_cons_of_mem b hp)
    rw [chain.eq_3 b rest hne,
      (h b List.mem_cons_self).language_append (isSegment_chain hrest), ih hrest, List.map_cons,
      List.prod_cons]

theorem isBlank_of_isBlank_chain {parts : List Body} (h : ∀ p ∈ parts, p.IsSegment)
    (hb : (chain parts).isBlank) : ∀ p ∈ parts, p.isBlank := by
  induction parts using chain.induct with
  | case1 => exact fun p hp => absurd hp List.not_mem_nil
  | case2 b => exact fun p hp => List.mem_singleton.mp hp ▸ hb
  | case3 b rest hne ih =>
    have hrest : ∀ p ∈ rest, p.IsSegment := fun p hp => h p (List.mem_cons_of_mem b hp)
    rw [chain.eq_3 b rest hne] at hb
    obtain ⟨hfirst, hothers⟩ :=
      (h b List.mem_cons_self).isBlank_append (isSegment_chain hrest) hb
    intro p hp
    rcases List.mem_cons.mp hp with rfl | hp
    · exact hfirst
    · exact ih hrest hothers p hp

theorem isSegment_sequence {parts : List Body} (h : ∀ p ∈ parts, p.IsSegment) :
    (sequence parts).IsSegment :=
  isSegment_chain fun p hp => h p (List.mem_of_mem_filter hp)

/-- A sequence matches what its parts match, one after the other. -/
theorem language_sequence {parts : List Body} (h : ∀ p ∈ parts, p.IsSegment) :
    (sequence parts).language env = (parts.map (·.language env)).prod := by
  rw [sequence, language_chain fun p hp => h p (List.mem_of_mem_filter hp)]
  induction parts with
  | nil => rfl
  | cons b rest ih =>
    have hrest := ih fun p hp => h p (List.mem_cons_of_mem b hp)
    cases hb : b.isBlank with
    | true =>
      have hone : b.language env = 1 :=
        (h b List.mem_cons_self).readable.language_of_isBlank hb
      simp [hb, hrest, hone]
    | false => simp [hb, hrest]

theorem isPart_chain {parts : List Body} (h : ∀ p ∈ parts, p.IsSegment) {b : Body}
    (hmem : b ∈ parts) (hb : b.isBlank = false) : (chain parts).IsPart := by
  refine ⟨isSegment_chain h, Bool.eq_false_iff.mpr fun hs => ?_⟩
  simpa [hb] using isBlank_of_isBlank_chain h hs b hmem

theorem isPart_sequence {parts : List Body} (h : ∀ p ∈ parts, p.IsSegment) {b : Body}
    (hmem : b ∈ parts) (hb : b.isBlank = false) : (sequence parts).IsPart :=
  isPart_chain (fun p hp => h p (List.mem_of_mem_filter hp))
    (List.mem_filter.mpr ⟨hmem, by simp [hb]⟩) hb

/-! ## Choices -/

theorem mem_choice {bodies : List Body} {w : List Char} :
    w ∈ (choice bodies).language env ↔ ∃ b ∈ bodies, w ∈ b.language env := by
  induction bodies using choice.induct with
  | case1 => simp [choice, Body.language, choicesLanguage, Language.notMem_zero]
  | case2 b => simp [choice]
  | case3 b rest hne ih =>
    have horElse : w ∈ (b.orElse (choice rest)).language env ↔
        w ∈ b.language env ∨ w ∈ (choice rest).language env := by
      simp only [Body.language, Body.orElse, mem_choicesLanguage, List.mem_append, or_and_right,
        exists_or]
    rw [choice.eq_3 b rest hne, horElse, ih]
    simp

theorem readable_choice {bodies : List Body} (hne : bodies ≠ []) (h : ∀ b ∈ bodies, b.Readable) :
    (choice bodies).Readable := by
  induction bodies using choice.induct with
  | case1 => exact absurd rfl hne
  | case2 b => exact h b List.mem_cons_self
  | case3 b rest hrest ih =>
    rw [choice.eq_3 b rest hrest]
    obtain ⟨hb, hbs⟩ := h b List.mem_cons_self
    obtain ⟨-, hcs⟩ := ih (fun hnil => hrest hnil) fun p hp => h p (List.mem_cons_of_mem b hp)
    refine ⟨by simp [Body.orElse, hb], choicesReadable_iff.mpr fun list hlist => ?_⟩
    rcases List.mem_append.mp hlist with hl | hl
    · exact choicesReadable_iff.mp hbs list hl
    · exact choicesReadable_iff.mp hcs list hl

theorem mem_of_mem_distinct_go {seen : List String} {bodies : List Body} {b : Body}
    (h : b ∈ distinct.go seen bodies) : b ∈ bodies ∧ b.isBlank = false := by
  induction bodies generalizing seen with
  | nil => exact absurd h List.not_mem_nil
  | cons c rest ih =>
    rw [distinct.go] at h
    split at h
    · exact (ih h).imp_left (List.mem_cons_of_mem c)
    · next hc =>
      rcases List.mem_cons.mp h with rfl | h
      · exact ⟨List.mem_cons_self, by simp_all⟩
      · exact (ih h).imp_left (List.mem_cons_of_mem c)

theorem mem_of_mem_distinct {bodies : List Body} {b : Body} (h : b ∈ distinct bodies) :
    b ∈ bodies ∧ b.isBlank = false :=
  mem_of_mem_distinct_go h

theorem exists_mem_distinct_go {bodies : List Body} {b : Body} (h : b ∈ bodies)
    (hb : b.isBlank = false) (seen : List String) :
    b.text ∈ seen ∨ ∃ c ∈ distinct.go seen bodies, c.text = b.text := by
  induction bodies generalizing seen with
  | nil => exact absurd h List.not_mem_nil
  | cons c rest ih =>
    rw [distinct.go]
    rcases List.mem_cons.mp h with rfl | hmem
    · by_cases hseen : b.text ∈ seen
      · exact .inl hseen
      · right
        simp [hb, hseen]
    · split
      · exact ih hmem seen
      · rcases ih hmem (c.text :: seen) with hseen | ⟨d, hd, ht⟩
        · rcases List.mem_cons.mp hseen with ht | hseen
          · exact .inr ⟨c, List.mem_cons_self, ht.symm⟩
          · exact .inl hseen
        · exact .inr ⟨d, List.mem_cons_of_mem c hd, ht⟩

/-- Every alternative that is not blank is kept, or one of the same text is. -/
theorem exists_mem_distinct {bodies : List Body} {b : Body} (h : b ∈ bodies)
    (hb : b.isBlank = false) : ∃ c ∈ distinct bodies, c.text = b.text :=
  (exists_mem_distinct_go h hb []).resolve_left List.not_mem_nil

/-- A choice matches what one of its alternatives matches. -/
theorem mem_alternation {bodies : List Body} (hne : bodies ≠ [])
    (h : ∀ b ∈ bodies, b.Readable ∧ b.isBlank = false) {w : List Char} :
    w ∈ (alternation bodies).language env ↔ ∃ b ∈ bodies, w ∈ b.language env := by
  have hkept : w ∈ (choice (distinct bodies)).language env ↔ ∃ b ∈ bodies, w ∈ b.language env := by
    rw [mem_choice]
    constructor
    · rintro ⟨b, hb, hw⟩
      exact ⟨b, (mem_of_mem_distinct hb).1, hw⟩
    · rintro ⟨b, hb, hw⟩
      obtain ⟨c, hc, ht⟩ := exists_mem_distinct hb (h b hb).2
      have hlang := Body.language_congr (h c (mem_of_mem_distinct hc).1).1 (h b hb).1 ht env
      exact ⟨c, hc, hlang ▸ hw⟩
  unfold alternation
  split
  · next hd =>
    obtain ⟨b, hb⟩ := List.exists_mem_of_ne_nil bodies hne
    obtain ⟨c, hc, -⟩ := exists_mem_distinct hb (h b hb).2
    rw [hd] at hc
    exact absurd hc List.not_mem_nil
  · next only hd => rw [← hkept, hd, choice]
  · rw [Body.language_group, Count.power_once, hkept]

theorem isSegment_alternation {bodies : List Body} (h : ∀ b ∈ bodies, b.IsSegment) :
    (alternation bodies).IsSegment := by
  unfold alternation
  split
  · exact Body.isSegment_literal ""
  · next only hd =>
    exact h only (mem_of_mem_distinct (hd ▸ List.mem_cons_self)).1
  · next hnil _ =>
    refine Body.isSegment_group (readable_choice hnil fun b hb => ?_) _
    exact (h b (mem_of_mem_distinct hb).1).readable

/-- A choice between alternatives that are not blank is one of them, or a group. -/
theorem alternation_cases {bodies : List Body} (hne : bodies ≠ [])
    (h : ∀ b ∈ bodies, b.isBlank = false) :
    ((distinct bodies).length < 2 ∧ alternation bodies ∈ bodies) ∨
      (¬ (distinct bodies).length < 2 ∧
        alternation bodies = (choice (distinct bodies)).group .once) := by
  unfold alternation
  split
  · next hd =>
    obtain ⟨b, hb⟩ := List.exists_mem_of_ne_nil bodies hne
    obtain ⟨c, hc, -⟩ := exists_mem_distinct hb (h b hb)
    rw [hd] at hc
    exact absurd hc List.not_mem_nil
  · next only hd => exact .inl ⟨by simp [hd], (mem_of_mem_distinct (hd ▸ List.mem_cons_self)).1⟩
  · next hnil hone =>
    refine .inr ⟨?_, rfl⟩
    match hd : distinct bodies with
    | [] => exact absurd hd hnil
    | [only] => exact absurd hd (hone only)
    | _ :: _ :: _ => simp

theorem isPart_alternation {bodies : List Body} (hne : bodies ≠ [])
    (h : ∀ b ∈ bodies, b.IsPart) : (alternation bodies).IsPart := by
  refine ⟨isSegment_alternation fun b hb => (h b hb).segment, ?_⟩
  rcases alternation_cases hne fun b hb => (h b hb).visible with ⟨-, hmem⟩ | ⟨hlen, heq⟩
  · exact (h _ hmem).visible
  · have hread : (choice (distinct bodies)).Readable := by
      refine readable_choice (fun hd => hlen (by simp [hd])) fun b hb => ?_
      exact (h b (mem_of_mem_distinct hb).1).segment.readable
    rw [heq]
    exact (Body.isPart_group hread .once).visible

/-! ## Repetitions -/

theorem word_pow (word : List Char) (n : Nat) :
    ({word} : Language Char) ^ n = {(List.replicate n word).flatten} := by
  induction n with
  | zero => rfl
  | succ n ih =>
    ext w
    rw [pow_succ', ih, Language.mem_mul, mem_word, List.replicate_succ, List.flatten_cons]
    constructor
    · rintro ⟨u, hu, v, hv, rfl⟩
      rw [mem_word.mp hu, mem_word.mp hv]
    · rintro rfl
      exact ⟨_, mem_word.mpr rfl, _, mem_word.mpr rfl, rfl⟩

/-- A literal, written out or counted, is a power of its word. -/
theorem language_repeatedLiteral (text : String) (n : Nat) :
    (repeatedLiteral text n).language env = ({text.toList} : Language Char) ^ n := by
  rw [repeatedLiteral]
  split_ifs
  · ext w
    simp [Item.language, Count.mem_power, Count.Admits]
  · rw [Body.language_literal, word_pow, repeatText]
    split
    · next h =>
      rw [String.isEmpty_iff.mp h]
      simp
    · rw [String.toList_join, List.flatMap_def, List.map_replicate]

theorem isSegment_repeatedLiteral (text : String) (n : Nat) :
    (repeatedLiteral text n).IsSegment := by
  rw [repeatedLiteral]
  split_ifs
  · exact Body.isSegment_item trivial
  · exact Body.isSegment_literal _

/-- The words of a separator; without one nothing stands between two words. -/
def separatorLanguage (env : String → Language Char) : Option Body → Language Char
  | none => 1
  | some s => s.language env

/-- Whether `k` is one of the counts from `least` to `most`. -/
def Within (least : Nat) (most : Option Nat) (k : Nat) : Prop := least ≤ k ∧ ∀ m ∈ most, k ≤ m

section

variable {value separator : Body}

theorem mem_followedBy (hv : value.IsSegment) (hs : separator.IsSegment) {count : Count}
    {w : List Char} :
    w ∈ (followedBy value separator count).language env ↔
      ∃ n, count.Admits n ∧
        w ∈ joined (separator.language env) (List.replicate (n + 1) (value.language env)) := by
  have hpair : ∀ p ∈ [separator, value], p.IsSegment := by simp [hs, hv]
  have hgroup : ((chain [separator, value]).group count).IsSegment :=
    Body.isSegment_group (isSegment_chain hpair).readable count
  have hprod : (followedBy value separator count).language env =
      value.language env * count.power (separator.language env * value.language env) := by
    rw [followedBy, language_sequence (by simp [hv, hgroup])]
    simp [language_chain hpair]
  rw [hprod, Language.mem_mul]
  simp only [joined_replicate_succ, Language.mem_mul, Count.mem_power]
  constructor
  · rintro ⟨u, hu, v, ⟨n, hn, hw⟩, rfl⟩
    exact ⟨n, hn, u, hu, v, hw, rfl⟩
  · rintro ⟨n, hn, u, hu, v, hw, rfl⟩
    exact ⟨u, hu, v, ⟨n, hn, hw⟩, rfl⟩

/-- As many words as `P` says, which are at least one: the first is written out, so the group counts
one less. -/
theorem mem_followedBy_iff (hv : value.IsSegment) (hs : separator.IsSegment) {count : Count}
    {P : Nat → Prop} (hzero : ¬ P 0) (hP : ∀ n, count.Admits n ↔ P (n + 1)) {w : List Char} :
    w ∈ (followedBy value separator count).language env ↔
      ∃ k, P k ∧
        w ∈ joined (separator.language env) (List.replicate k (value.language env)) := by
  rw [mem_followedBy hv hs]
  constructor
  · rintro ⟨n, hn, hw⟩
    exact ⟨n + 1, (hP n).mp hn, hw⟩
  · rintro ⟨_ | n, hn, hw⟩
    · exact absurd hn hzero
    · exact ⟨n, (hP n).mpr hn, hw⟩

/-- As many words as `P` says, or none. -/
theorem mem_optional_followedBy (hv : value.IsSegment) (hs : separator.IsSegment) {count : Count}
    {P : Nat → Prop} (hzero : P 0) (hP : ∀ n, count.Admits n ↔ P (n + 1)) {w : List Char} :
    w ∈ ((followedBy value separator count).group .optional).language env ↔
      ∃ k, P k ∧
        w ∈ joined (separator.language env) (List.replicate k (value.language env)) := by
  rw [Body.language_group, Count.mem_power_optional, mem_followedBy hv hs]
  constructor
  · rintro (rfl | ⟨n, hn, hw⟩)
    · exact ⟨0, hzero, by simp [Language.mem_one]⟩
    · exact ⟨n + 1, (hP n).mp hn, hw⟩
  · rintro ⟨_ | n, hn, hw⟩
    · exact .inl (by simpa [Language.mem_one] using hw)
    · exact .inr ⟨n, (hP n).mpr hn, hw⟩

theorem isPart_followedBy (hv : value.IsSegment) (hs : separator.IsSegment) (count : Count) :
    (followedBy value separator count).IsPart := by
  have hgroup : ((chain [separator, value]).group count).IsPart :=
    Body.isPart_group (isSegment_chain (by simp [hs, hv])).readable count
  exact isPart_sequence (by simp [hv, hgroup.segment]) (by simp) hgroup.visible

end

/-- Words without a separator between them, counted by a group. -/
theorem mem_group_replicate {value : Body} {count : Count} {w : List Char} :
    w ∈ (value.group count).language env ↔
      ∃ n, count.Admits n ∧ w ∈ joined 1 (List.replicate n (value.language env)) := by
  simp only [Body.language_group, Count.mem_power, joined_one_replicate]

section

variable {value : Body} {separator : Option Body}

theorem mem_unbounded (hv : value.IsSegment) (hs : ∀ s ∈ separator, s.IsSegment) {least : Nat}
    {w : List Char} :
    w ∈ (unbounded value least separator).language env ↔
      ∃ k, least ≤ k ∧
        w ∈ joined (separatorLanguage env separator) (List.replicate k (value.language env)) := by
  cases separator with
  | none =>
    simp only [unbounded, separatorLanguage]
    split <;> rw [mem_group_replicate] <;> simp [Count.Admits]
  | some s =>
    have hs := hs s rfl
    simp only [unbounded, separatorLanguage]
    split
    · exact mem_optional_followedBy hv hs (Nat.zero_le 0) fun n => by simp [Count.Admits]
    · exact mem_followedBy_iff hv hs (by decide) fun n => by simp [Count.Admits]
    · exact mem_followedBy_iff hv hs (by simp) fun n => by simp [Count.Admits]

theorem mem_fixed (hv : value.IsSegment) (hs : ∀ s ∈ separator, s.IsSegment) {n : Nat}
    (hn : 1 < n) {w : List Char} :
    w ∈ (fixed value n separator).language env ↔
      w ∈ joined (separatorLanguage env separator) (List.replicate n (value.language env)) := by
  cases separator with
  | none =>
    rw [fixed, mem_group_replicate]
    simp [Count.Admits, separatorLanguage]
  | some s =>
    have hs := hs s rfl
    rw [fixed]
    split
    · next h =>
      subst h
      rw [language_sequence (by simp [hv, hs])]
      simp [separatorLanguage, joined]
    · obtain ⟨k, rfl⟩ : ∃ k, n = k + 1 := ⟨n - 1, by omega⟩
      simp [mem_followedBy hv hs, Count.Admits, separatorLanguage]

theorem mem_ranged (hv : value.IsSegment) (hs : ∀ s ∈ separator, s.IsSegment) {least most : Nat}
    (hm : 1 < most) {w : List Char} :
    w ∈ (ranged value least most separator).language env ↔
      ∃ k, (least ≤ k ∧ k ≤ most) ∧
        w ∈ joined (separatorLanguage env separator) (List.replicate k (value.language env)) := by
  cases separator with
  | none =>
    rw [ranged, mem_group_replicate]
    simp [Count.Admits, separatorLanguage]
  | some s =>
    have hs := hs s rfl
    have hfurther : ∀ n, Count.Admits
        (if least ≤ 1 && most = 2 then .optional else .between (least - 1) (most - 1)) n ↔
          least ≤ n + 1 ∧ n + 1 ≤ most := by
      intro n
      split
      · next h =>
        simp only [Bool.and_eq_true, decide_eq_true_eq] at h
        simp only [Count.Admits]
        omega
      · simp only [Count.Admits]
        omega
    simp only [ranged, separatorLanguage]
    split
    · exact mem_optional_followedBy hv hs (by omega) hfurther
    · exact mem_followedBy_iff hv hs (by omega) hfurther

/-- **A repetition matches exactly the admitted numbers of words**, with a separator between two of
them. -/
theorem mem_repetition (hv : value.IsSegment) (hs : ∀ s ∈ separator, s.IsSegment) {least : Nat}
    {most : Option Nat} {w : List Char} :
    w ∈ (repetition value separator least most).language env ↔
      ∃ k, Within least (most.map (max · least)) k ∧
        w ∈ joined (separatorLanguage env separator) (List.replicate k (value.language env)) := by
  cases most with
  | none => simp [repetition, mem_unbounded hv hs, Within]
  | some bound =>
    unfold repetition
    simp only [Within, Option.map_some, Option.mem_def, Option.some.injEq, forall_eq']
    generalize hmost : max bound least = most
    have hle : least ≤ most := hmost ▸ Nat.le_max_right bound least
    split
    · next h =>
      subst h
      obtain rfl : least = 0 := Nat.le_zero.mp hle
      simp [Language.mem_one]
    · split
      · next h =>
        subst h
        split
        · next h0 =>
          subst h0
          rw [Body.language_group, Count.mem_power_optional]
          constructor
          · rintro (rfl | hw)
            · exact ⟨0, ⟨le_refl 0, by decide⟩, by simp [Language.mem_one]⟩
            · exact ⟨1, ⟨by decide, le_refl 1⟩, by simpa [joined] using hw⟩
          · rintro ⟨k, ⟨-, hk⟩, hw⟩
            obtain rfl | rfl := Nat.le_one_iff_eq_zero_or_eq_one.mp hk
            · exact .inl (by simpa [Language.mem_one] using hw)
            · exact .inr (by simpa [joined] using hw)
        · next h0 =>
          obtain rfl : least = 1 := by omega
          simp [← Nat.le_antisymm_iff, joined]
      · split
        · next h =>
          subst h
          simp [mem_fixed hv hs (show 1 < least by omega), ← Nat.le_antisymm_iff]
        · rw [mem_ranged hv hs (by omega)]

theorem isPart_unbounded (hv : value.IsSegment) (hs : ∀ s ∈ separator, s.IsSegment) (least : Nat) :
    (unbounded value least separator).IsPart := by
  have hgroup : ∀ count, (value.group count).IsPart := Body.isPart_group hv.readable
  cases separator with
  | none =>
    simp only [unbounded]
    split <;> exact hgroup _
  | some s =>
    have hfollowed : ∀ count, (followedBy value s count).IsPart :=
      isPart_followedBy hv (hs s rfl)
    simp only [unbounded]
    split
    · exact Body.isPart_group (hfollowed _).segment.readable _
    · exact hfollowed _
    · exact hfollowed _

theorem isSegment_fixed (hv : value.IsSegment) (hs : ∀ s ∈ separator, s.IsSegment) (n : Nat) :
    (fixed value n separator).IsSegment := by
  cases separator with
  | none => exact Body.isSegment_group hv.readable _
  | some s =>
    rw [fixed]
    split
    · exact isSegment_sequence (by simp [hv, hs s rfl])
    · exact (isPart_followedBy hv (hs s rfl) _).segment

theorem isPart_fixed (hv : value.IsPart) (hs : ∀ s ∈ separator, s.IsSegment) (n : Nat) :
    (fixed value n separator).IsPart := by
  cases separator with
  | none => exact Body.isPart_group hv.segment.readable _
  | some s =>
    rw [fixed]
    split
    · exact isPart_sequence (by simp [hv.segment, hs s rfl]) List.mem_cons_self hv.visible
    · exact isPart_followedBy hv.segment (hs s rfl) _

theorem isPart_ranged (hv : value.IsSegment) (hs : ∀ s ∈ separator, s.IsSegment)
    (least most : Nat) : (ranged value least most separator).IsPart := by
  cases separator with
  | none => exact Body.isPart_group hv.readable _
  | some s =>
    have hfollowed : ∀ count, (followedBy value s count).IsPart :=
      isPart_followedBy hv (hs s rfl)
    simp only [ranged]
    split
    · exact Body.isPart_group (hfollowed _).segment.readable _
    · exact hfollowed _

/-- A repetition is visible unless it admits no word at all. -/
theorem isPart_repetition (hv : value.IsPart) (hs : ∀ s ∈ separator, s.IsSegment) {least : Nat}
    {most : Option Nat} (h : ¬ (least = 0 ∧ most = some 0)) :
    (repetition value separator least most).IsPart := by
  cases most with
  | none => exact isPart_unbounded hv.segment hs least
  | some bound =>
    simp only [repetition]
    split_ifs with h0 h1 h2 h3
    · exact absurd h0 (by simp at h; omega)
    · exact Body.isPart_group hv.segment.readable _
    · exact hv
    · exact isPart_fixed hv hs _
    · exact isPart_ranged hv.segment hs _ _

theorem isSegment_repetition (hv : value.IsSegment) (hs : ∀ s ∈ separator, s.IsSegment)
    (least : Nat) (most : Option Nat) : (repetition value separator least most).IsSegment := by
  cases most with
  | none => exact (isPart_unbounded hv hs least).segment
  | some bound =>
    simp only [repetition]
    split_ifs
    · exact Body.isSegment_literal ""
    · exact Body.isSegment_group hv.readable _
    · exact hv
    · exact isSegment_fixed hv hs _
    · exact (isPart_ranged hv hs _ _).segment

end

end Grammar

end SchemaGrammar
