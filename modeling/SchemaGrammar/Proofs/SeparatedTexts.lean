import SchemaGrammar.Proofs.ContainerBody

/-!
# Texts with separators

Repetitions and members of objects are written as text, and it is the text that a grammar goes by.
Here both are read back: which words the written text derives, whatever the rules of the grammar
are.

Values, entries and separators may be any **segments**. The name of a rule is one, so the results
hold of names about which nothing is known. A separator that is a bare choice is not a segment, and
a repetition does not put it in brackets: `repetition_of_bare_choice` shows what is derived then.

## Main results

* `derivesText_repetition`: the admitted numbers of values, with a separator between two of them.
* `derivesText_objectMembers`: some of the members in order, all the required ones among them, then
  additional ones, with a separator between two of them.
-/

namespace SchemaGrammar

namespace Grammar

/-! ## Written bodies -/

/-- The text is that of a body, and the body derives the word. -/
def DerivesText (rules : Assoc Body) (text : String) (w : List Char) : Prop :=
  ∃ b, readBody text.toList = some b ∧ Derives rules (.choice b.choices) w

/-- The text of a readable body derives what the body matches. -/
theorem derivesText_iff {rules : Assoc Body} {b : Body} (h : b.Readable) {w : List Char} :
    DerivesText rules b.text w ↔ w ∈ b.language (derivable rules) := by
  have hread := readBody_text h
  rw [← Body.language_loosened, ← derives_choice_iff]
  constructor
  · rintro ⟨c, hc, hw⟩
    obtain rfl : b.loosened = c := Option.some.inj (hread.symm.trans hc)
    exact hw
  · intro hw
    exact ⟨b.loosened, hread, hw⟩

/-! ## Repetitions -/

/-- From `least` to `most` words of a value, with a word of the separator between two of them. An
upper bound below `least` counts as `least`. -/
def RepeatedWords (env : String → Language Char) (value : Body) (separator : Option Body)
    (least : Nat) (most : Option Nat) (w : List Char) : Prop :=
  ∃ k, (least ≤ k ∧ ∀ m ∈ most, k ≤ max least m) ∧
    w ∈ joined (separatorLanguage env separator) (List.replicate k (value.language env))

theorem within_map_max_iff {least k : Nat} {most : Option Nat} :
    Within least (most.map (max · least)) k ↔ least ≤ k ∧ ∀ m ∈ most, k ≤ max least m := by
  cases most <;> simp [Within, max_comm]

/-- **The text of a repetition** derives the admitted numbers of values, with a separator between
two of them. -/
theorem derivesText_repetition {value : Body} {separator : Option Body} (hv : value.IsSegment)
    (hs : ∀ s ∈ separator, s.IsSegment) (least : Nat) (most : Option Nat) (rules : Assoc Body)
    (w : List Char) :
    DerivesText rules (repetition value separator least most).text w ↔
      RepeatedWords (derivable rules) value separator least most w := by
  have hread : (repetition value separator least most).Readable :=
    (isSegment_repetition hv hs least most).readable
  rw [derivesText_iff hread, mem_repetition hv hs]
  simp only [within_map_max_iff, RepeatedWords]

/-- Two to three letters by commas: two of them are derived. -/
theorem derivesText_repetition_letters :
    DerivesText [] "\"x\" ( \",\" \"x\" )\x7b1,2\x7d" "x,x".toList := by
  have hcomma : ∀ s ∈ some (Body.literal ","), s.IsSegment := by simp [Body.isSegment_literal]
  refine (derivesText_repetition (Body.isSegment_literal "x") hcomma 2 (some 3) [] _).mpr
    ⟨2, by simp, ?_⟩
  rw [joined_replicate_succ, pow_one]
  simp only [separatorLanguage, Body.language_literal]
  exact Language.mem_mul.mpr ⟨_, rfl, _, Language.mem_mul.mpr ⟨_, rfl, _, rfl, rfl⟩, rfl⟩

/-- A separator that is a bare choice is torn apart by what stands around it: one value and half of
the separator is derived, though it is not two values with a separator between them. -/
theorem repetition_of_bare_choice :
    DerivesText [] (repetition (.literal "x") (some (choice [.literal "a", .literal "b"])) 2
      (some 2)).text "xa".toList ∧
    ¬ RepeatedWords (derivable []) (.literal "x") (some (choice [.literal "a", .literal "b"])) 2
      (some 2) "xa".toList := by
  have htorn : repetition (.literal "x") (some (choice [.literal "a", .literal "b"])) 2 (some 2) =
      ⟨[[.literal "x" .once, .literal "a" .once], [.literal "b" .once, .literal "x" .once]]⟩ := rfl
  constructor
  · have hread : Body.Readable
        ⟨[[.literal "x" .once, .literal "a" .once], [.literal "b" .once, .literal "x" .once]]⟩ := by
      simp [Body.Readable, choicesReadable_iff, sequenceReadable_iff, Item.Readable]
    rw [htorn, derivesText_iff hread, Body.language, mem_choicesLanguage]
    refine ⟨_, List.mem_cons_self, ?_⟩
    simp only [sequenceLanguage, Item.language, Count.power_once, mul_one]
    exact Language.mem_mul.mpr ⟨"x".toList, rfl, "a".toList, rfl, rfl⟩
  · rintro ⟨k, ⟨hleast, hmost⟩, hw⟩
    obtain rfl : k = 2 := le_antisymm (hmost 2 rfl) hleast
    -- a second value would follow whatever the separator matches
    rw [joined_replicate_succ, pow_one, Body.language_literal, Language.mem_mul] at hw
    obtain ⟨u, rfl, v, hv, huv⟩ := hw
    obtain ⟨a, -, b, rfl, rfl⟩ := Language.mem_mul.mp hv
    simp [List.append_eq_singleton_iff] at huv

/-! ## Members of objects -/

/-- Choosing with order and all required entries kept, said with sublists. -/
theorem chosen_iff_sublist {α : Type*} {required : α → Bool} {all chosen : List α} :
    Chosen required all chosen ↔
      chosen.Sublist all ∧ chosen.filter required = all.filter required := by
  induction all generalizing chosen with
  | nil => simp +contextual [chosen_nil_iff]
  | cons a all ih =>
    rw [chosen_cons_iff]
    constructor
    · rintro (⟨rest, rfl, hrest⟩ | ⟨ha, hskip⟩)
      · obtain ⟨hsub, hreq⟩ := ih.mp hrest
        exact ⟨hsub.cons_cons a, by rw [List.filter_cons, List.filter_cons, hreq]⟩
      · obtain ⟨hsub, hreq⟩ := ih.mp hskip
        exact ⟨hsub.cons a, by rw [hreq, List.filter_cons_of_neg (by simp [ha])]⟩
    · rintro ⟨hsub, hreq⟩
      cases hsub with
      | cons _ hsub =>
        cases ha : required a with
        | false => exact .inr ⟨rfl, ih.mpr ⟨hsub, by simpa [ha] using hreq⟩⟩
        | true =>
          -- the required entry is left out, so too few of the required ones are kept
          have hlen : (chosen.filter required).length ≤ (all.filter required).length :=
            (hsub.filter required).length_le
          rw [hreq, List.filter_cons_of_pos ha, List.length_cons] at hlen
          exact absurd hlen (by omega)
      | cons_cons _ hsub =>
        refine .inl ⟨_, rfl, ih.mpr ⟨hsub, ?_⟩⟩
        cases ha : required a with
        | false => simpa [ha] using hreq
        | true => simpa [ha] using hreq

/-- A word of joined parts is empty only if there is no part, or the first one may be empty. -/
theorem nil_mem_joined_iff {s : Language Char} {parts : List (Language Char)}
    (h : ∀ l ∈ parts, [] ∉ l) : [] ∈ joined s parts ↔ parts = [] := by
  cases parts with
  | nil => simp [Language.mem_one]
  | cons l rest =>
    have hl : [] ∉ l := h l List.mem_cons_self
    rw [joined_cons, Language.mem_mul]
    simp [hl]

variable {members : List Member} {additional : Option Body} {separator : Body}

/-- Without empty entries no entry stands for the empty word, so nothing may be required. -/
theorem nil_memberWords_iff {env : String → Language Char}
    (hm : ∀ m ∈ members, [] ∉ m.entry.language env) (ha : ∀ x ∈ additional, [] ∉ x.language env) :
    MemberWords env separator members additional [] ↔ ∀ m ∈ members, m.required = false := by
  have hextra : [] ∉ extraLanguage env additional := by
    cases additional with
    | none => exact Language.notMem_zero []
    | some extra => exact ha extra rfl
  constructor
  · rintro ⟨chosen, n, hc, -, hw⟩ m hmem
    have hsub : chosen.Sublist members := (chosen_iff_sublist.mp hc).1
    rw [nil_mem_joined_iff, List.append_eq_nil_iff, List.map_eq_nil_iff] at hw
    · exact Bool.eq_false_iff.mpr fun hr => hc.ne_nil hmem hr hw.1
    · intro l hl
      rcases List.mem_append.mp hl with hl | hl
      · obtain ⟨m, hm', rfl⟩ := List.mem_map.mp hl
        exact hm m (hsub.mem hm')
      · exact List.eq_of_mem_replicate hl ▸ hextra
  · intro hopt
    have hreq : members.filter Member.required = [] :=
      List.filter_eq_nil_iff.mpr fun m hmem => by simp [hopt m hmem]
    have hnone : Chosen Member.required members [] :=
      chosen_iff_sublist.mpr ⟨List.nil_sublist members, hreq.symm⟩
    exact ⟨[], 0, hnone, fun _ => rfl, by simp [Language.mem_one]⟩

/-- **The text of an object's members** derives some of the members in declared order, all the
required ones among them, then additional ones, with a separator between two of them. If no entry
matches the empty word, it is derived exactly when no member is required. -/
theorem derivesText_objectMembers (hs : separator.IsSegment)
    (hm : ∀ m ∈ members, m.entry.IsSegment) (ha : ∀ x ∈ additional, x.IsSegment)
    (rules : Assoc Body) :
    (∀ w, DerivesText rules (objectMembers members additional separator).text w ↔
      ∃ (chosen : List Member) (n : Nat), chosen.Sublist members ∧
        chosen.filter Member.required = members.filter Member.required ∧
        (additional = none → n = 0) ∧
        w ∈ joined (separator.language (derivable rules))
          (chosen.map (·.entry.language (derivable rules)) ++
            List.replicate n (extraLanguage (derivable rules) additional))) ∧
    ((∀ m ∈ members, [] ∉ m.entry.language (derivable rules)) →
      (∀ x ∈ additional, [] ∉ x.language (derivable rules)) →
      (DerivesText rules (objectMembers members additional separator).text [] ↔
        ∀ m ∈ members, m.required = false)) := by
  have hwords : ∀ w, DerivesText rules (objectMembers members additional separator).text w ↔
      MemberWords (derivable rules) separator members additional w := fun w =>
    (derivesText_iff (isSegment_objectMembers hs hm ha).readable).trans (mem_objectMembers hs hm ha)
  refine ⟨fun w => ?_, fun hentry hextra => ?_⟩
  · simp only [hwords, MemberWords, chosen_iff_sublist, and_assoc]
  · rw [hwords]
    exact nil_memberWords_iff hentry hextra

/-- An optional member, a required one and additional ones: the optional one may be left out, the
required one may not. -/
theorem derivesText_objectMembers_letters :
    DerivesText [] "( \"a\" \",\" )? \"b\" ( \",\" \"x\" )*" "b,x".toList ∧
      ¬ DerivesText [] "( \"a\" \",\" )? \"b\" ( \",\" \"x\" )*" [] := by
  obtain ⟨hwords, hempty⟩ := @derivesText_objectMembers
    [⟨.literal "a", false⟩, ⟨.literal "b", true⟩] (some (.literal "x")) (.literal ",")
    (Body.isSegment_literal ",") (by simp [Body.isSegment_literal])
    (by simp [Body.isSegment_literal]) []
  constructor
  · refine (hwords _).mpr ⟨[⟨.literal "b", true⟩], 1, by simp, rfl, by simp, ?_⟩
    simp only [List.map_cons, List.map_nil, List.replicate_one, List.singleton_append, joined_cons,
      List.prod_singleton, extraLanguage, Option.map_some, Option.getD_some, Body.language_literal]
    exact Language.mem_mul.mpr ⟨_, rfl, _, Language.mem_mul.mpr ⟨_, rfl, _, rfl, rfl⟩, rfl⟩
  · intro hnil
    have hall := (hempty (by simp [mem_word]) (by simp [mem_word])).mp hnil
    simp at hall

end Grammar

end SchemaGrammar
