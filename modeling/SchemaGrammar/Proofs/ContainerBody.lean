import Mathlib.Data.List.TakeWhile
import SchemaGrammar.Proofs.TerminalBody
import SchemaGrammar.Rules.Composite

/-!
# Bodies of containers

The bodies that are written for lists and objects match exactly the forms of lists and objects.

The hard case is objects. Separators stand only between two members that are present, whichever
members those are, so the body depends on whether any member is required. With a required member
the optional ones before it bring their own separator and all later ones follow theirs. Without
one the body is a choice over the member that comes first. Both say the same: some of the members
in order, all the required ones among them, joined by separators (`mem_objectMembers`).

## Main definitions

* `Composes`: what all parts of an object have as soon as its members have it.

## Main results

* `mem_arrayElements`, `mem_objectMembers`: what stands between the brackets.
* `language_arrayBody`, `language_objectBody`: lists and objects.
-/

namespace SchemaGrammar

namespace Grammar

open Lexeme

variable {env : String → Language Char}

/-! ## Entries and brackets -/

section

variable {key value inner outer body : Body}

theorem isPart_entry (hk : key.IsSegment) (hv : value.IsSegment) : (entry key value).IsPart :=
  isPart_sequence (b := .literal ":")
    (by simp [hk, hv, Body.isSegment_literal, isSegment_optionalBlank]) (by simp) (by decide)

theorem language_entry (hk : key.IsSegment) (hv : value.IsSegment) :
    (entry key value).language env = entryForm (key.language env) (value.language env) := by
  rw [entry, language_sequence
    (by simp [hk, hv, Body.isSegment_literal, isSegment_optionalBlank])]
  simp only [List.map_cons, List.map_nil, List.prod_cons, List.prod_nil, mul_one,
    language_optionalBlank, Body.language_literal, entryForm, mul_assoc]
  rfl

theorem isPart_enclose {opening closing : String} (ho : opening ≠ "") (hi : inner.IsSegment)
    (hb : body.IsSegment) (hout : outer.IsSegment) :
    (enclose opening closing inner body outer).IsPart := by
  unfold enclose
  split <;>
    exact isPart_sequence (by simp [hi, hb, hout, Body.isSegment_literal]) List.mem_cons_self
      (Body.isPart_literal ho).visible

theorem language_enclose {opening closing : String} (hi : inner.IsSegment) (hb : body.IsSegment)
    (hout : outer.IsSegment) {possible : Prop} [Decidable possible]
    (hp : body.isBlank = true ↔ ¬ possible) :
    (enclose opening closing inner body outer).language env =
      bracketForm opening closing (inner.language env) (outer.language env) possible
        (body.language env) := by
  unfold enclose bracketForm
  by_cases h : possible
  · rw [if_pos h, if_neg (by simp [hp, h]),
      language_sequence (by simp [hi, hb, hout, Body.isSegment_literal])]
    simp only [List.map_cons, List.map_nil, List.prod_cons, List.prod_nil, mul_one,
      Body.language_literal, mul_assoc]
    rfl
  · rw [if_neg h, if_pos (hp.mpr h),
      language_sequence (by simp [hout, Body.isSegment_literal])]
    simp only [List.map_cons, List.map_nil, List.prod_cons, List.prod_nil, mul_one,
      Body.language_literal, mul_assoc]
    rfl

end

/-! ## Lists -/

theorem forall_mem_separated {P : Body → Prop} {separator : Body} (hs : P separator)
    {bodies : List Body} (h : ∀ b ∈ bodies, P b) : ∀ b ∈ separated separator bodies, P b := by
  induction bodies using separated.induct with
  | case1 => exact fun b hb => absurd hb List.not_mem_nil
  | case2 b => exact h
  | case3 b rest hne ih =>
    rw [separated.eq_3 _ b rest hne]
    have hrest := ih fun c hc => h c (List.mem_cons_of_mem b hc)
    exact List.forall_mem_cons.mpr
      ⟨h b List.mem_cons_self, List.forall_mem_cons.mpr ⟨hs, hrest⟩⟩

theorem prod_separated {separator : Body} (bodies : List Body) :
    ((separated separator bodies).map (·.language env)).prod =
      joined (separator.language env) (bodies.map (·.language env)) := by
  induction bodies using separated.induct with
  | case1 => rfl
  | case2 b => simp [separated, joined_cons]
  | case3 b rest hne ih =>
    obtain ⟨c, rest, rfl⟩ := List.exists_cons_of_ne_nil (fun h => hne h)
    rw [separated.eq_3 _ b _ hne]
    simp only [List.map_cons, List.prod_cons, joined_cons] at ih ⊢
    rw [ih]
    simp only [mul_assoc]

theorem arrayElements_nil (separator item : Body) (least : Nat) (most : Option Nat) :
    arrayElements separator [] item least most = repetition item (some separator) least most :=
  rfl

section

variable {separator item : Body} {leading : List Body} {least : Nat} {most : Option Nat}

/-- The leading items and the ones after them, if there are leading items at all. -/
theorem arrayElements_of_ne_nil (h : leading ≠ []) :
    arrayElements separator leading item least most =
      sequence [chain (separated separator leading),
        repetition (sequence [separator, item]) none (least - leading.length)
          (most.map (· - leading.length))] := by
  rw [arrayElements, if_neg (by simpa using h)]

theorem noSeparator : ∀ s ∈ (none : Option Body), s.IsSegment := fun _ hs => nomatch hs

theorem map_max_eq {least : Nat} {most : Option Nat} (h : ∀ m ∈ most, least ≤ m) :
    most.map (max · least) = most := by
  cases most with
  | none => rfl
  | some m => simp [h m rfl]

/-- Counting what follows the leading items. -/
theorem within_sub_iff {count k : Nat} (hleast : count ≤ least) (hmost : ∀ m ∈ most, least ≤ m) :
    Within (least - count) ((most.map (· - count)).map (max · (least - count))) k ↔
      Within least most (count + k) := by
  cases most with
  | none =>
    simp only [Within, Option.map_none, Option.mem_def, reduceCtorEq, false_implies, implies_true,
      and_true]
    omega
  | some m =>
    have := hmost m rfl
    simp only [Within, Option.map_some, Option.mem_def, Option.some.injEq, forall_eq']
    omega

theorem isPart_separatedItem (hs : separator.IsSegment) (hi : item.IsPart) :
    (sequence [separator, item]).IsPart :=
  isPart_sequence (b := item) (by simp [hs, hi.segment]) (by simp) hi.visible

/-- **The elements of a list**: the leading ones, then as many items as the bounds admit. -/
theorem mem_arrayElements (hs : separator.IsSegment) (hl : ∀ b ∈ leading, b.IsPart)
    (hi : item.IsPart) (hleast : leading.length ≤ least) (hmost : ∀ m ∈ most, least ≤ m)
    {w : List Char} :
    w ∈ (arrayElements separator leading item least most).language env ↔
      ∃ n, Within least most (leading.length + n) ∧
        w ∈ joined (separator.language env)
          (leading.map (·.language env) ++ List.replicate n (item.language env)) := by
  by_cases h : leading = []
  · subst h
    rw [arrayElements_nil, mem_repetition hi.segment (by simp [hs]), map_max_eq hmost]
    simp [separatorLanguage]
  · have hnext := isPart_separatedItem hs hi
    have hlead : ∀ b ∈ separated separator leading, b.IsSegment :=
      forall_mem_separated hs fun b hb => (hl b hb).segment
    have hrest : (repetition (sequence [separator, item]) none (least - leading.length)
        (most.map (· - leading.length))).IsSegment :=
      isSegment_repetition hnext.segment noSeparator _ _
    have hpair : (sequence [separator, item]).language env =
        separator.language env * item.language env := by
      rw [language_sequence (by simp [hs, hi.segment])]
      simp
    have hjoined : ∀ n, joined (separator.language env)
        (leading.map (·.language env) ++ List.replicate n (item.language env)) =
        joined (separator.language env) (leading.map (·.language env)) *
          (separator.language env * item.language env) ^ n := fun n => by
      rw [joined_append (by simpa using h), List.map_replicate, List.prod_replicate]
    have hfurther : ∀ v, v ∈ (repetition (sequence [separator, item]) none
        (least - leading.length) (most.map (· - leading.length))).language env ↔
        ∃ n, Within least most (leading.length + n) ∧
          v ∈ (separator.language env * item.language env) ^ n := fun v => by
      simp only [mem_repetition hnext.segment noSeparator, separatorLanguage,
        joined_one_replicate, within_sub_iff hleast hmost, hpair]
    rw [arrayElements_of_ne_nil h,
      language_sequence (by simp [isSegment_chain hlead, hrest])]
    simp only [List.map_cons, List.map_nil, List.prod_cons, List.prod_nil, mul_one,
      language_chain hlead, prod_separated, Language.mem_mul, hjoined, hfurther]
    constructor
    · rintro ⟨u, hu, v, ⟨n, hn, hv⟩, rfl⟩
      exact ⟨n, hn, u, hu, v, hv, rfl⟩
    · rintro ⟨n, hn, u, hu, v, hv, rfl⟩
      exact ⟨u, hu, v, ⟨n, hn, hv⟩, rfl⟩

theorem isSegment_arrayElements (hs : separator.IsSegment) (hl : ∀ b ∈ leading, b.IsPart)
    (hi : item.IsPart) : (arrayElements separator leading item least most).IsSegment := by
  by_cases h : leading = []
  · subst h
    exact isSegment_repetition hi.segment (by simp [hs]) _ _
  · rw [arrayElements_of_ne_nil h]
    have hlead := isSegment_chain (forall_mem_separated hs fun b hb => (hl b hb).segment)
    have hrest := isSegment_repetition (isPart_separatedItem hs hi).segment noSeparator
    exact isSegment_sequence (by simp [hlead, hrest])

theorem mem_separated {bodies : List Body} {b : Body} (h : b ∈ bodies) :
    b ∈ separated separator bodies := by
  induction bodies using separated.induct with
  | case1 => exact absurd h List.not_mem_nil
  | case2 c => exact h
  | case3 c rest hne ih =>
    rw [separated.eq_3 _ c rest hne]
    rcases List.mem_cons.mp h with rfl | h
    · exact List.mem_cons_self
    · exact List.mem_cons_of_mem _ (List.mem_cons_of_mem _ (ih h))

/-- Nothing is written between the brackets only if no element is possible. -/
theorem isBlank_arrayElements (hs : separator.IsSegment) (hl : ∀ b ∈ leading, b.IsPart)
    (hi : item.IsPart) (hmost : ∀ m ∈ most, least ≤ m) :
    (arrayElements separator leading item least most).isBlank = true ↔
      ¬ ¬ (leading.length = 0 ∧ most = some 0) := by
  rw [not_not]
  by_cases h : leading = []
  · subst h
    rw [arrayElements_nil]
    constructor
    · intro hb
      by_contra hne
      have hpart : (repetition item (some separator) least most).IsPart :=
        isPart_repetition hi (by simp [hs]) (by simp_all)
      rw [hpart.visible] at hb
      exact Bool.false_ne_true hb
    · rintro ⟨-, rfl⟩
      obtain rfl : least = 0 := Nat.le_zero.mp (hmost 0 rfl)
      simp [repetition]
      decide
  · have hlead := forall_mem_separated hs fun b hb => (hl b hb).segment
    obtain ⟨b, hb⟩ := List.exists_mem_of_ne_nil leading h
    have hfirst := isPart_chain hlead (mem_separated hb) (hl b hb).visible
    have hrest := isSegment_repetition (isPart_separatedItem hs hi).segment noSeparator
    rw [arrayElements_of_ne_nil h, (isPart_sequence (by simp [hfirst.segment, hrest])
      List.mem_cons_self hfirst.visible).visible]
    simp [h]

end

/-! ## Objects -/

/-- The additional members that may follow a member. -/
def additionalTail (separator : Body) (additional : Option Body) : List Body :=
  (additional.map fun extra => (chain [separator, extra]).group .many).toList

/-- The words of a member that is not declared. -/
def extraLanguage (env : String → Language Char) (additional : Option Body) : Language Char :=
  (additional.map (·.language env)).getD 0

/-- What bodies keep when they are strung together and counted. -/
structure Composes (P : Body → Prop) : Prop where
  of_chain : ∀ {bodies : List Body}, (∀ b ∈ bodies, P b) → P (chain bodies)
  of_group : ∀ {b : Body}, P b → ∀ count, P (b.group count)

theorem composes_isSegment : Composes Body.IsSegment :=
  ⟨isSegment_chain, fun h => Body.isSegment_group h.readable⟩

section

variable {separator : Body} {additional : Option Body} {members : List Member}

section

variable {P : Body → Prop} (hP : Composes P) (hs : P separator) (ha : ∀ x ∈ additional, P x)

include hP hs

theorem Composes.of_after {entry : Body} (he : P entry) : P (chain [separator, entry]) :=
  hP.of_chain (by simp [hs, he])

theorem Composes.of_optionalAfter {entry : Body} (he : P entry) :
    P (optionalAfter separator entry) :=
  hP.of_group (hP.of_after hs he) _

theorem Composes.forall_laterMembers (hm : ∀ m ∈ members, P m.entry) :
    ∀ b ∈ laterMembers separator members, P b := by
  intro b hb
  obtain ⟨m, hmem, rfl⟩ := List.mem_map.mp hb
  split
  · exact hP.of_after hs (hm m hmem)
  · exact hP.of_optionalAfter hs (hm m hmem)

include ha

theorem Composes.forall_additionalTail : ∀ b ∈ additionalTail separator additional, P b := by
  intro b hb
  obtain ⟨extra, hextra, rfl⟩ := Option.map_eq_some_iff.mp (Option.mem_toList.mp hb)
  exact hP.of_group (hP.of_after hs (ha extra hextra)) _

/-- The members that come after a first one. -/
theorem Composes.forall_further (hm : ∀ m ∈ members, P m.entry) :
    ∀ b ∈ laterMembers separator members ++ additionalTail separator additional, P b :=
  List.forall_mem_append.mpr ⟨hP.forall_laterMembers hs hm, hP.forall_additionalTail hs ha⟩

end

theorem mem_additionalTail (hs : separator.IsSegment) (ha : ∀ x ∈ additional, x.IsSegment)
    {w : List Char} :
    w ∈ ((additionalTail separator additional).map (·.language env)).prod ↔
      ∃ n, (additional = none → n = 0) ∧
        w ∈ (separator.language env * extraLanguage env additional) ^ n := by
  cases additional with
  | none => simp [additionalTail]
  | some extra =>
    have hpair : ∀ p ∈ [separator, extra], p.IsSegment := by simp [hs, ha extra rfl]
    simp [additionalTail, language_chain hpair, Count.mem_power, Count.Admits, extraLanguage]

theorem language_optionalAfter {entry : Body} (hs : separator.IsSegment) (he : entry.IsSegment) :
    (optionalAfter separator entry).language env =
      1 + separator.language env * entry.language env := by
  rw [optionalAfter, Body.language_group, Count.power_optional,
    language_chain (by simp [hs, he])]
  simp

/-- What may follow a member that is present: by induction on the later members, each of which is
taken or, if it is not required, skipped. -/
theorem mem_laterMembers (hs : separator.IsSegment) (hm : ∀ m ∈ members, m.entry.IsSegment)
    (ha : ∀ x ∈ additional, x.IsSegment) {w : List Char} :
    w ∈ ((laterMembers separator members ++ additionalTail separator additional).map
        (·.language env)).prod ↔
      ∃ chosen n, Chosen Member.required members chosen ∧ (additional = none → n = 0) ∧
        w ∈ ((chosen.map (·.entry.language env) ++
          List.replicate n (extraLanguage env additional)).map
            (separator.language env * ·)).prod := by
  induction members generalizing w with
  | nil =>
    simp [laterMembers, mem_additionalTail hs ha, chosen_nil_iff]
  | cons m rest ih =>
    have he := hm m List.mem_cons_self
    have ih := @ih fun p hp => hm p (List.mem_cons_of_mem m hp)
    have htaken : w ∈ (separator.language env * m.entry.language env) *
        ((laterMembers separator rest ++ additionalTail separator additional).map
          (·.language env)).prod ↔
        ∃ chosen n, (∃ c, chosen = m :: c ∧ Chosen Member.required rest c) ∧
          (additional = none → n = 0) ∧
          w ∈ ((chosen.map (·.entry.language env) ++
            List.replicate n (extraLanguage env additional)).map
              (separator.language env * ·)).prod := by
      rw [Language.mem_mul]
      constructor
      · rintro ⟨u, hu, v, hv, rfl⟩
        obtain ⟨c, n, hc, hn, hv⟩ := ih.mp hv
        refine ⟨m :: c, n, ⟨c, rfl, hc⟩, hn, ?_⟩
        rw [List.map_cons, List.cons_append, List.map_cons, List.prod_cons]
        exact Language.append_mem_mul hu hv
      · rintro ⟨_, n, ⟨c, rfl, hc⟩, hn, hw⟩
        rw [List.map_cons, List.cons_append, List.map_cons, List.prod_cons, Language.mem_mul] at hw
        obtain ⟨u, hu, v, hv, rfl⟩ := hw
        exact ⟨u, hu, v, ih.mpr ⟨c, n, hc, hn, hv⟩, rfl⟩
    rw [laterMembers, List.map_cons, List.cons_append, List.map_cons, List.prod_cons,
      ← laterMembers]
    cases hr : m.required with
    | true =>
      have hpair : (chain [separator, m.entry]).language env =
          separator.language env * m.entry.language env := by
        rw [language_chain (by simp [hs, he])]
        simp
      rw [if_pos rfl, hpair, htaken]
      simp only [chosen_cons_iff, hr, Bool.true_eq_false, false_and, or_false]
    | false =>
      rw [if_neg (by decide), language_optionalAfter hs he, add_mul, one_mul, Language.mem_add,
        htaken, ih]
      simp only [chosen_cons_iff, hr, true_and, or_and_right, exists_or]
      exact or_comm

/-- The members are some of the declared ones, in order, and then additional ones. -/
def MemberWords (env : String → Language Char) (separator : Body) (members : List Member)
    (additional : Option Body) (w : List Char) : Prop :=
  ∃ chosen n, Chosen Member.required members chosen ∧ (additional = none → n = 0) ∧
    w ∈ joined (separator.language env)
      (chosen.map (·.entry.language env) ++ List.replicate n (extraLanguage env additional))

/-- The optional members before the first required one bring their own separator: by induction on
them. Something follows each of them, since the required member is present. -/
theorem mem_withRequired {optional later : List Member} {first : Member}
    (hs : separator.IsSegment) (hfirst : first.required = true)
    (hm : ∀ m ∈ optional ++ first :: later, m.entry.IsSegment)
    (hopt : ∀ m ∈ optional, m.required = false) (ha : ∀ x ∈ additional, x.IsSegment)
    {w : List Char} :
    w ∈ ((optional.map (fun m => (chain [m.entry, separator]).group .optional) ++
        first.entry :: laterMembers separator later ++
          additionalTail separator additional).map (·.language env)).prod ↔
      MemberWords env separator (optional ++ first :: later) additional w := by
  induction optional generalizing w with
  | nil =>
    have hlater : ∀ m ∈ later, m.entry.IsSegment := fun m h => hm m (by simp [h])
    simp only [List.map_nil, List.nil_append, List.cons_append, List.map_cons, List.prod_cons,
      Language.mem_mul, mem_laterMembers hs hlater ha, MemberWords, chosen_cons_iff, hfirst,
      Bool.true_eq_false, false_and, or_false]
    constructor
    · rintro ⟨u, hu, v, ⟨c, n, hc, hn, hv⟩, rfl⟩
      refine ⟨first :: c, n, ⟨c, rfl, hc⟩, hn, ?_⟩
      rw [List.map_cons, List.cons_append, joined_cons]
      exact Language.append_mem_mul hu hv
    · rintro ⟨_, n, ⟨c, rfl, hc⟩, hn, hw⟩
      rw [List.map_cons, List.cons_append, joined_cons, Language.mem_mul] at hw
      obtain ⟨u, hu, v, hv, rfl⟩ := hw
      exact ⟨u, hu, v, ⟨c, n, hc, hn, hv⟩, rfl⟩
  | cons m rest ih =>
    have he : m.entry.IsSegment := hm m (by simp)
    have ih := @ih (fun p hp => hm p (List.mem_cons_of_mem m hp))
      fun p hp => hopt p (List.mem_cons_of_mem m hp)
    have hhead : ((chain [m.entry, separator]).group .optional).language env =
        1 + m.entry.language env * separator.language env := by
      rw [Body.language_group, Count.power_optional, language_chain (by simp [hs, he])]
      simp
    have hnext : ∀ {c : List Member} {n : Nat},
        Chosen Member.required (rest ++ first :: later) c →
        joined (separator.language env) ((m :: c).map (·.entry.language env) ++
          List.replicate n (extraLanguage env additional)) =
        m.entry.language env * separator.language env * joined (separator.language env)
          (c.map (·.entry.language env) ++
            List.replicate n (extraLanguage env additional)) := by
      intro c n hc
      have hne := hc.ne_nil (a := first) (by simp) hfirst
      rw [List.map_cons, List.cons_append, joined_cons_of_ne_nil (by simp [hne])]
    rw [List.map_cons, List.cons_append, List.cons_append, List.map_cons, List.prod_cons, hhead,
      add_mul, one_mul, Language.mem_add, Language.mem_mul, ih]
    simp only [ih, MemberWords, List.cons_append, chosen_cons_iff, hopt m List.mem_cons_self,
      true_and]
    constructor
    · rintro (⟨c, n, hc, hn, hw⟩ | ⟨u, hu, v, ⟨c, n, hc, hn, hv⟩, rfl⟩)
      · exact ⟨c, n, .inr hc, hn, hw⟩
      · exact ⟨m :: c, n, .inl ⟨c, rfl, hc⟩, hn, hnext hc ▸ Language.append_mem_mul hu hv⟩
    · rintro ⟨_, n, ⟨c, rfl, hc⟩ | hc, hn, hw⟩
      · rw [hnext hc, Language.mem_mul] at hw
        obtain ⟨u, hu, v, hv, rfl⟩ := hw
        exact .inr ⟨u, hu, v, ⟨c, n, hc, hn, hv⟩, rfl⟩
      · exact .inl ⟨_, n, hc, hn, hw⟩

theorem laterMembers_of_optional (h : ∀ m ∈ members, m.required = false) :
    laterMembers separator members = members.map (optionalAfter separator ·.entry) :=
  List.map_congr_left fun m hm => by simp [h m hm]

/-- Without required members one of the declared members comes first. -/
theorem mem_startingAt (hs : separator.IsSegment) (hm : ∀ m ∈ members, m.entry.IsSegment)
    (hopt : ∀ m ∈ members, m.required = false) (ha : ∀ x ∈ additional, x.IsSegment)
    {w : List Char} :
    (∃ b ∈ startingAt separator (additionalTail separator additional) members,
        w ∈ b.language env) ↔
      ∃ first rest n, Chosen Member.required members (first :: rest) ∧
        (additional = none → n = 0) ∧
        w ∈ joined (separator.language env) ((first :: rest).map (·.entry.language env) ++
          List.replicate n (extraLanguage env additional)) := by
  induction members with
  | nil => simp [startingAt, chosen_nil_iff]
  | cons m later ih =>
    have he := hm m List.mem_cons_self
    have hlater : ∀ p ∈ later, p.entry.IsSegment := fun p hp => hm p (List.mem_cons_of_mem m hp)
    have hopt' : ∀ p ∈ later, p.required = false := fun p hp => hopt p (List.mem_cons_of_mem m hp)
    have hseg : ∀ b ∈ m.entry :: later.map (optionalAfter separator ·.entry) ++
        additionalTail separator additional, b.IsSegment := by
      rw [← laterMembers_of_optional hopt', List.cons_append]
      exact List.forall_mem_cons.mpr ⟨he, composes_isSegment.forall_further hs ha hlater⟩
    have hfirst : w ∈ (sequence (m.entry :: later.map (optionalAfter separator ·.entry) ++
        additionalTail separator additional)).language env ↔
        ∃ rest n, Chosen Member.required later rest ∧ (additional = none → n = 0) ∧
          w ∈ joined (separator.language env) ((m :: rest).map (·.entry.language env) ++
            List.replicate n (extraLanguage env additional)) := by
      rw [language_sequence hseg, ← laterMembers_of_optional hopt', List.cons_append,
        List.map_cons, List.prod_cons, Language.mem_mul]
      simp only [mem_laterMembers hs hlater ha, List.map_cons, List.cons_append, joined_cons,
        Language.mem_mul]
      constructor
      · rintro ⟨u, hu, v, ⟨c, n, hc, hn, hv⟩, rfl⟩
        exact ⟨c, n, hc, hn, u, hu, v, hv, rfl⟩
      · rintro ⟨c, n, hc, hn, u, hu, v, hv, rfl⟩
        exact ⟨u, hu, v, ⟨c, n, hc, hn, hv⟩, rfl⟩
    rw [startingAt, List.exists_mem_cons_iff, hfirst, ih hlater hopt']
    simp only [chosen_cons_iff, hopt m List.mem_cons_self, true_and, List.cons.injEq]
    constructor
    · rintro (⟨rest, n, hc, hn, hw⟩ | ⟨first, rest, n, hc, hn, hw⟩)
      · exact ⟨m, rest, n, .inl ⟨rest, ⟨rfl, rfl⟩, hc⟩, hn, hw⟩
      · exact ⟨first, rest, n, .inr hc, hn, hw⟩
    · rintro ⟨first, rest, n, ⟨_, ⟨rfl, rfl⟩, hc⟩ | hc, hn, hw⟩
      · exact .inl ⟨_, n, hc, hn, hw⟩
      · exact .inr ⟨first, rest, n, hc, hn, hw⟩

/-- The members before the first required one, that one, and the later ones. -/
theorem objectMembers_of_required {optional later : List Member} {first : Member}
    (hfirst : first.required = true) (hopt : ∀ m ∈ optional, m.required = false) :
    objectMembers (optional ++ first :: later) additional separator =
      sequence (optional.map (fun m => (chain [m.entry, separator]).group .optional) ++
        first.entry :: laterMembers separator later ++ additionalTail separator additional) := by
  have hspan : (optional ++ first :: later).span (!·.required) = (optional, first :: later) := by
    rw [List.span_eq_takeWhile_dropWhile, List.takeWhile_append_of_pos (by simpa using hopt),
      List.dropWhile_append_of_pos (by simpa using hopt)]
    simp [hfirst]
  simp only [objectMembers, hspan]
  rfl

/-- The alternatives for an object without required members. -/
def objectStarts (separator : Body) (members : List Member) (additional : Option Body) :
    List Body :=
  startingAt separator (additionalTail separator additional) members ++
    (additional.map fun extra => chain (extra :: additionalTail separator additional)).toList

theorem objectMembers_of_optional (hopt : ∀ m ∈ members, m.required = false) :
    objectMembers members additional separator =
      if (objectStarts separator members additional).isEmpty then .empty
      else (choice (objectStarts separator members additional)).group .optional := by
  have hspan : members.span (!·.required) = (members, []) := by
    rw [List.span_eq_takeWhile_dropWhile, List.takeWhile_eq_self_iff.mpr (by simpa using hopt),
      List.dropWhile_eq_nil_iff.mpr (by simpa using hopt)]
  simp only [objectMembers, hspan]
  rfl

/-- Members that are all optional, or a first one that is required. -/
theorem required_cases (members : List Member) :
    (∀ m ∈ members, m.required = false) ∨
      ∃ optional first later, members = optional ++ first :: later ∧ first.required = true ∧
        ∀ m ∈ optional, m.required = false := by
  induction members with
  | nil => exact .inl fun m hm => absurd hm List.not_mem_nil
  | cons m rest ih =>
    cases hr : m.required with
    | true => exact .inr ⟨[], m, rest, rfl, hr, fun p hp => absurd hp List.not_mem_nil⟩
    | false =>
      rcases ih with ih | ⟨optional, first, later, rfl, hfirst, hopt⟩
      · exact .inl (List.forall_mem_cons.mpr ⟨hr, ih⟩)
      · exact .inr ⟨m :: optional, first, later, rfl, hfirst,
          List.forall_mem_cons.mpr ⟨hr, hopt⟩⟩

theorem Composes.forall_objectStarts {P : Body → Prop} (hP : Composes P) (hs : P separator)
    (ha : ∀ x ∈ additional, P x) (hm : ∀ m ∈ members, P m.entry) :
    ∀ b ∈ objectStarts separator members additional, P b := by
  have htail := hP.forall_additionalTail hs ha
  refine List.forall_mem_append.mpr ⟨?_, fun b hb => ?_⟩
  · induction members with
    | nil => exact fun b hb => absurd hb List.not_mem_nil
    | cons m later ih =>
      obtain ⟨hfirst, hlater⟩ := List.forall_mem_cons.mp hm
      refine List.forall_mem_cons.mpr ⟨hP.of_chain fun b hb => ?_, ih hlater⟩
      have hb := List.mem_of_mem_filter hb
      rw [List.cons_append, List.mem_cons, List.mem_append, List.mem_map] at hb
      rcases hb with rfl | ⟨p, hp, rfl⟩ | hb
      · exact hfirst
      · exact hP.of_optionalAfter hs (hlater p hp)
      · exact htail b hb
  · obtain ⟨extra, hextra, rfl⟩ := Option.map_eq_some_iff.mp (Option.mem_toList.mp hb)
    exact hP.of_chain (List.forall_mem_cons.mpr ⟨ha extra hextra, htail⟩)

theorem objectStarts_eq_nil_iff :
    objectStarts separator members additional = [] ↔ members = [] ∧ additional = none := by
  cases members <;> cases additional <;> simp [objectStarts, startingAt]

/-- An object that begins with an additional member. -/
theorem mem_startingExtra (hs : separator.IsSegment) (ha : ∀ x ∈ additional, x.IsSegment)
    {w : List Char} :
    (∃ b ∈ (additional.map fun extra => chain (extra :: additionalTail separator additional)).toList,
        w ∈ b.language env) ↔
      ∃ n, (additional = none → n + 1 = 0) ∧
        w ∈ joined (separator.language env)
          (List.replicate (n + 1) (extraLanguage env additional)) := by
  cases additional with
  | none => simp
  | some extra =>
    have hall : ∀ b ∈ extra :: additionalTail separator (some extra), b.IsSegment :=
      List.forall_mem_cons.mpr ⟨ha extra rfl, composes_isSegment.forall_additionalTail hs ha⟩
    simp only [Option.map_some, Option.toList_some, List.mem_singleton, exists_eq_left,
      language_chain hall, List.map_cons, List.prod_cons, Language.mem_mul,
      mem_additionalTail hs ha, joined_replicate_succ, reduceCtorEq, false_implies, true_and,
      extraLanguage, Option.getD_some]
    constructor
    · rintro ⟨u, hu, v, ⟨n, hv⟩, rfl⟩
      exact ⟨n, u, hu, v, hv, rfl⟩
    · rintro ⟨n, u, hu, v, hv, rfl⟩
      exact ⟨u, hu, v, ⟨n, hv⟩, rfl⟩

/-- The members after a first required one, and the optional ones before it. -/
theorem Composes.forall_requiredParts {P : Body → Prop} (hP : Composes P) (hs : P separator)
    (ha : ∀ x ∈ additional, P x) {optional later : List Member} {first : Member}
    (hm : ∀ m ∈ optional ++ first :: later, P m.entry) :
    ∀ b ∈ optional.map (fun m => (chain [m.entry, separator]).group .optional) ++
      first.entry :: laterMembers separator later ++ additionalTail separator additional, P b := by
  obtain ⟨hoptional, hm⟩ := List.forall_mem_append.mp hm
  obtain ⟨hfirst, hlater⟩ := List.forall_mem_cons.mp hm
  rw [List.append_assoc, List.cons_append]
  refine List.forall_mem_append.mpr ⟨List.forall_mem_map.mpr fun m hmem => ?_,
    List.forall_mem_cons.mpr ⟨hfirst, hP.forall_further hs ha hlater⟩⟩
  exact hP.of_group (hP.of_chain (by simp [hs, hoptional m hmem])) _

/-- **The members of an object**: whichever of them are present, separators stand only between two
of them. -/
theorem mem_objectMembers (hs : separator.IsSegment) (hm : ∀ m ∈ members, m.entry.IsSegment)
    (ha : ∀ x ∈ additional, x.IsSegment) {w : List Char} :
    w ∈ (objectMembers members additional separator).language env ↔
      MemberWords env separator members additional w := by
  rcases required_cases members with hopt | ⟨optional, first, later, rfl, hfirst, hopt⟩
  · have hwords : MemberWords env separator members additional w ↔
        w = [] ∨ ∃ b ∈ objectStarts separator members additional, w ∈ b.language env := by
      have hnone : Chosen Member.required members [] := by
        clear hm
        induction members with
        | nil => exact .nil
        | cons m rest ih =>
          exact .skip (hopt m List.mem_cons_self) (ih fun p hp => hopt p (List.mem_cons_of_mem m hp))
      simp only [objectStarts, List.mem_append, or_and_right, exists_or,
        mem_startingAt hs hm hopt ha, mem_startingExtra hs ha]
      constructor
      · rintro ⟨_ | ⟨first, rest⟩, _ | n, hc, hn, hw⟩
        · exact .inl (by simpa [Language.mem_one] using hw)
        · exact .inr (.inr ⟨n, hn, by simpa using hw⟩)
        · exact .inr (.inl ⟨first, rest, 0, hc, hn, hw⟩)
        · exact .inr (.inl ⟨first, rest, n + 1, hc, hn, hw⟩)
      · rintro (rfl | ⟨first, rest, n, hc, hn, hw⟩ | ⟨n, hn, hw⟩)
        · exact ⟨[], 0, hnone, fun _ => rfl, by simp [Language.mem_one]⟩
        · exact ⟨first :: rest, n, hc, hn, hw⟩
        · exact ⟨[], n + 1, hnone, hn, by simpa using hw⟩
    rw [objectMembers_of_optional hopt, hwords]
    split_ifs with hempty
    · simp [List.isEmpty_iff.mp hempty, Language.mem_one]
    · rw [Body.language_group, Count.mem_power_optional, mem_choice]
  · rw [objectMembers_of_required hfirst hopt,
      language_sequence (composes_isSegment.forall_requiredParts hs ha hm),
      mem_withRequired hs hfirst hm hopt ha]

theorem isSegment_objectMembers (hs : separator.IsSegment)
    (hm : ∀ m ∈ members, m.entry.IsSegment) (ha : ∀ x ∈ additional, x.IsSegment) :
    (objectMembers members additional separator).IsSegment := by
  rcases required_cases members with hopt | ⟨optional, first, later, rfl, hfirst, hopt⟩
  · rw [objectMembers_of_optional hopt]
    split_ifs with hempty
    · exact Body.isSegment_empty
    · refine Body.isSegment_group (readable_choice (by simpa using hempty) fun b hb => ?_) _
      exact (composes_isSegment.forall_objectStarts hs ha hm b hb).readable
  · rw [objectMembers_of_required hfirst hopt]
    exact isSegment_sequence (composes_isSegment.forall_requiredParts hs ha hm)

/-- Nothing is written between the brackets only if no member is possible. -/
theorem isBlank_objectMembers (hs : separator.IsSegment) (hm : ∀ m ∈ members, m.entry.IsPart)
    (ha : ∀ x ∈ additional, x.IsSegment) :
    (objectMembers members additional separator).isBlank = true ↔
      ¬ ¬ (members.length = 0 ∧ additional.isNone) := by
  have hseg : ∀ m ∈ members, m.entry.IsSegment := fun m h => (hm m h).segment
  rw [not_not, List.length_eq_zero_iff, Option.isNone_iff_eq_none]
  rcases required_cases members with hopt | ⟨optional, first, later, rfl, hfirst, hopt⟩
  · have hnil : objectStarts separator members additional = [] ↔ members = [] ∧ additional = none :=
      objectStarts_eq_nil_iff
    rw [objectMembers_of_optional hopt, ← hnil]
    split_ifs with hempty
    · exact iff_of_true (by decide) (List.isEmpty_iff.mp hempty)
    · have hgroup :
          ((choice (objectStarts separator members additional)).group .optional).IsPart := by
        refine Body.isPart_group (readable_choice (by simpa using hempty) fun b hb => ?_) _
        exact (composes_isSegment.forall_objectStarts hs ha hseg b hb).readable
      simpa [hgroup.visible] using hempty
  · have hpart : first.entry.isBlank = false := (hm first (by simp)).visible
    have hparts := composes_isSegment.forall_requiredParts hs ha hseg
    rw [objectMembers_of_required hfirst hopt, (isPart_sequence hparts (by simp) hpart).visible]
    simp

end

/-! ## Whole containers -/

theorem isSegment_comma {inner : Body} (h : inner.IsSegment) :
    (sequence [.literal ",", inner]).IsSegment :=
  isSegment_sequence (by simp [h, Body.isSegment_literal])

theorem language_comma {inner : Body} (h : inner.IsSegment) :
    (sequence [.literal ",", inner]).language env = comma (inner.language env) := by
  rw [language_sequence (by simp [h, Body.isSegment_literal])]
  simp [comma, word]

/-- The body of a list. -/
def arrayBody (inner outer : Body) (leading : List Body) (item : Body) (least : Nat)
    (most : Option Nat) : Body :=
  enclose "[" "]" inner (arrayElements (sequence [.literal ",", inner]) leading item least most)
    outer

/-- The body of an object. -/
def objectBody (inner outer : Body) (members : List Member) (additional : Option Body) : Body :=
  enclose "\x7b" "\x7d" inner
    (objectMembers members additional (sequence [.literal ",", inner])) outer

section

variable {inner outer : Body}

theorem isPart_arrayBody (hin : inner.IsSegment) (hout : outer.IsSegment) {leading : List Body}
    (hl : ∀ b ∈ leading, b.IsPart) {item : Body} (hi : item.IsPart) (least : Nat)
    (most : Option Nat) : (arrayBody inner outer leading item least most).IsPart :=
  isPart_enclose (by decide) hin (isSegment_arrayElements (isSegment_comma hin) hl hi) hout

theorem language_arrayBody (hin : inner.IsSegment) (hout : outer.IsSegment) {leading : List Body}
    (hl : ∀ b ∈ leading, b.IsPart) {item : Body} (hi : item.IsPart) {least : Nat}
    {most : Option Nat} (hleast : leading.length ≤ least) (hmost : ∀ m ∈ most, least ≤ m) :
    (arrayBody inner outer leading item least most).language env =
      listForm (inner.language env) (outer.language env) (leading.map (·.language env))
        (item.language env) least most := by
  have hs := isSegment_comma hin
  rw [arrayBody, listForm, List.length_map, language_enclose hin (isSegment_arrayElements hs hl hi)
    hout (isBlank_arrayElements hs hl hi hmost)]
  congr 1
  ext w
  rw [mem_arrayElements hs hl hi hleast hmost, language_comma hin, mem_elements, List.length_map]

theorem isPart_objectBody (hin : inner.IsSegment) (hout : outer.IsSegment) {members : List Member}
    (hm : ∀ m ∈ members, m.entry.IsPart) {additional : Option Body}
    (ha : ∀ x ∈ additional, x.IsSegment) : (objectBody inner outer members additional).IsPart :=
  isPart_enclose (by decide) hin
    (isSegment_objectMembers (isSegment_comma hin) (fun m h => (hm m h).segment) ha) hout

theorem language_objectBody (hin : inner.IsSegment) (hout : outer.IsSegment)
    {members : List Member} (hm : ∀ m ∈ members, m.entry.IsPart) {additional : Option Body}
    (ha : ∀ x ∈ additional, x.IsSegment) :
    (objectBody inner outer members additional).language env =
      objectForm (inner.language env) (outer.language env)
        (members.map fun m => (m.entry.language env, m.required))
        (additional.map (·.language env)) := by
  have hs := isSegment_comma hin
  have hseg : ∀ m ∈ members, m.entry.IsSegment := fun m h => (hm m h).segment
  rw [objectBody, objectForm, List.length_map, Option.isNone_map,
    language_enclose hin (isSegment_objectMembers hs hseg ha) hout
      (isBlank_objectMembers hs hm ha)]
  congr 1
  ext w
  rw [mem_objectMembers hs hseg ha, MemberWords, language_comma hin, mem_memberList]
  simp only [chosen_map_iff, Option.map_eq_none_iff, extraLanguage]
  constructor
  · rintro ⟨c, n, hc, hn, hw⟩
    exact ⟨_, n, ⟨c, hc, rfl⟩, hn, by simpa [Function.comp_def] using hw⟩
  · rintro ⟨_, n, ⟨c, hc, rfl⟩, hn, hw⟩
    exact ⟨c, n, hc, hn, by simpa [Function.comp_def] using hw⟩

end

end Grammar

end SchemaGrammar
