import Mathlib
import SchemaGrammar.Assoc
import SchemaGrammar.Grammar.Body

/-!
# Derivations

What a grammar matches. A derivation is a finite tree: a literal gives its own text, a class one
of its characters, a rule whatever its body gives, a group whatever one of its choices gives, and
an item is repeated as often as its count admits.

## Two readings

`Derives` is the relation of finite derivations. `Body.language` computes the language of a body
from an assignment of languages to rule names, by recursion over the syntax tree. The second form
is the one that proofs calculate with; the two are tied together by `derivable_eq_lfp`: what the
rules of a grammar derive is the least solution of the equations that their bodies spell.

## Main definitions

* `Count.Admits`, `CharClass.Admits`: how often, and which characters.
* `Derives`: finite derivations.
* `Item.language`, `Body.language`: the language of an expression, given those of the rules.

## Main results

* `Body.language_mono`: more words for the rules are more words for a body.
* `derivable_eq_lfp`: derivable words are the least solution of the rules.
-/

namespace SchemaGrammar

namespace Grammar

/-! ## Counts and classes -/

/-- Whether an item with this count may be matched `n` times. -/
def Count.Admits : Count → Nat → Prop
  | .once, n => n = 1
  | .optional, n => n ≤ 1
  | .many, _ => True
  | .some, n => 1 ≤ n
  | .exactly k, n => n = k
  | .atLeast k, n => k ≤ n
  | .between least most, n => least ≤ n ∧ n ≤ most

/-- Whether a character is one of those of an entry. -/
def ClassEntry.Admits : ClassEntry → Char → Prop
  | .single a, c => c = a
  | .range first last, c => first.toNat ≤ c.toNat ∧ c.toNat ≤ last.toNat

/-- Whether a character is in a class. -/
def CharClass.Admits (set : CharClass) (c : Char) : Prop :=
  if set.negated then ∀ e ∈ set.entries, ¬ e.Admits c else ∃ e ∈ set.entries, e.Admits c

instance (e : ClassEntry) (c : Char) : Decidable (e.Admits c) :=
  match e with
  | .single a => inferInstanceAs (Decidable (c = a))
  | .range first last =>
    inferInstanceAs (Decidable (first.toNat ≤ c.toNat ∧ c.toNat ≤ last.toNat))

instance (set : CharClass) (c : Char) : Decidable (set.Admits c) :=
  inferInstanceAs (Decidable (if set.negated then _ else _))

/-- The count of an item. -/
def Item.count : Item → Count
  | .literal _ count | .chars _ count | .rule _ count | .group _ _ count => count

/-! ## Derivations -/

/-- What a derivation is about: one occurrence of an item, an item a number of times, a sequence
of items, or a choice between sequences. -/
inductive Phrase where
  | single (i : Item)
  | times (i : Item) (n : Nat)
  | sequence (items : List Item)
  | choice (choices : List (List Item))

/-- `Derives rules p w`: the phrase `p` matches the word `w` under the rules of a grammar. -/
inductive Derives (rules : Assoc Body) : Phrase → List Char → Prop
  | literal {text count} : Derives rules (.single (.literal text count)) text.toList
  | chars {set : CharClass} {count c} (h : set.Admits c) :
      Derives rules (.single (.chars set count)) [c]
  | rule {name count body w} (h : rules.get? name = some body)
      (hw : Derives rules (.choice body.choices) w) : Derives rules (.single (.rule name count)) w
  | group {tight choices count w} (hw : Derives rules (.choice choices) w) :
      Derives rules (.single (.group tight choices count)) w
  | never {i} : Derives rules (.times i 0) []
  | again {i n u v} (hu : Derives rules (.single i) u) (hv : Derives rules (.times i n) v) :
      Derives rules (.times i (n + 1)) (u ++ v)
  | empty : Derives rules (.sequence []) []
  | cons {i : Item} {n items u v} (hn : i.count.Admits n) (hu : Derives rules (.times i n) u)
      (hv : Derives rules (.sequence items) v) : Derives rules (.sequence (i :: items)) (u ++ v)
  | choice {items choices w} (h : items ∈ choices) (hw : Derives rules (.sequence items) w) :
      Derives rules (.choice choices) w

/-- The words that the rule `name` derives. -/
def derivable (rules : Assoc Body) (name : String) : Language Char :=
  {w | Derives rules (.single (.rule name .once)) w}

/-! ## Languages of expressions -/

/-- The words made of as many words of `l` as the count admits. -/
def Count.power (count : Count) (l : Language Char) : Language Char :=
  {w | ∃ n, count.Admits n ∧ w ∈ l ^ n}

/-- The words of one character of a class. -/
def CharClass.language (set : CharClass) : Language Char := {w | ∃ c, set.Admits c ∧ w = [c]}

theorem mem_word {w word : List Char} : w ∈ ({word} : Language Char) ↔ w = word :=
  Iff.rfl

theorem Count.mem_power {count : Count} {l : Language Char} {w : List Char} :
    w ∈ count.power l ↔ ∃ n, count.Admits n ∧ w ∈ l ^ n :=
  Iff.rfl

theorem CharClass.mem_language {set : CharClass} {w : List Char} :
    w ∈ set.language ↔ ∃ c, set.Admits c ∧ w = [c] :=
  Iff.rfl

theorem Count.power_mono (count : Count) {l l' : Language Char} (h : l ≤ l') :
    count.power l ≤ count.power l' := by
  rintro w ⟨n, hn, hw⟩
  exact ⟨n, hn, pow_le_pow_left' h n hw⟩

mutual

/-- The words of an item, given those of the rules. -/
def Item.language (env : String → Language Char) : Item → Language Char
  | .literal text count => count.power {text.toList}
  | .chars set count => count.power set.language
  | .rule name count => count.power (env name)
  | .group _ choices count => count.power (choicesLanguage env choices)

/-- The words of a sequence of items. -/
def sequenceLanguage (env : String → Language Char) : List Item → Language Char
  | [] => 1
  | i :: items => i.language env * sequenceLanguage env items

/-- The words of a choice between sequences. -/
def choicesLanguage (env : String → Language Char) : List (List Item) → Language Char
  | [] => 0
  | items :: choices => sequenceLanguage env items + choicesLanguage env choices

end

/-- The words of a body, given those of the rules. -/
def Body.language (env : String → Language Char) (b : Body) : Language Char :=
  choicesLanguage env b.choices

/-- The words of one occurrence of an item, its count aside. -/
def Item.unit (env : String → Language Char) : Item → Language Char
  | .literal text _ => {text.toList}
  | .chars set _ => set.language
  | .rule name _ => env name
  | .group _ choices _ => choicesLanguage env choices

theorem Item.language_eq (env : String → Language Char) (i : Item) :
    i.language env = i.count.power (i.unit env) := by
  cases i <;> simp only [Item.language, Item.count, Item.unit]

theorem mem_choicesLanguage {env : String → Language Char} {choices : List (List Item)}
    {w : List Char} :
    w ∈ choicesLanguage env choices ↔ ∃ items ∈ choices, w ∈ sequenceLanguage env items := by
  induction choices with
  | nil => simp [choicesLanguage, Language.notMem_zero]
  | cons items choices ih => simp [choicesLanguage, Language.mem_add, ih]

/-! ### Monotonicity -/

mutual

theorem Item.language_mono {env env' : String → Language Char} (h : env ≤ env') :
    (i : Item) → i.language env ≤ i.language env'
  | .literal text count => by rw [Item.language, Item.language]
  | .chars set count => by rw [Item.language, Item.language]
  | .rule name count => by
    rw [Item.language, Item.language]
    exact count.power_mono (h name)
  | .group tight choices count => by
    rw [Item.language, Item.language]
    exact count.power_mono (choicesLanguage_mono h choices)

theorem sequenceLanguage_mono {env env' : String → Language Char} (h : env ≤ env') :
    (items : List Item) → sequenceLanguage env items ≤ sequenceLanguage env' items
  | [] => by rw [sequenceLanguage, sequenceLanguage]
  | i :: items => by
    rw [sequenceLanguage, sequenceLanguage]
    exact mul_le_mul' (Item.language_mono h i) (sequenceLanguage_mono h items)

theorem choicesLanguage_mono {env env' : String → Language Char} (h : env ≤ env') :
    (choices : List (List Item)) → choicesLanguage env choices ≤ choicesLanguage env' choices
  | [] => by rw [choicesLanguage, choicesLanguage]
  | items :: choices => by
    rw [choicesLanguage, choicesLanguage]
    exact add_le_add (sequenceLanguage_mono h items) (choicesLanguage_mono h choices)

end

theorem Body.language_mono {env env' : String → Language Char} (h : env ≤ env') (b : Body) :
    b.language env ≤ b.language env' :=
  choicesLanguage_mono h b.choices

/-! ## Derivable words are the least solution -/

/-- The words of a phrase, given those of the rules. -/
def Phrase.language (env : String → Language Char) : Phrase → Language Char
  | .single i => i.unit env
  | .times i n => i.unit env ^ n
  | .sequence items => sequenceLanguage env items
  | .choice choices => choicesLanguage env choices

/-- An assignment that is closed under the rules has all derivable words: by induction on the
derivation. -/
theorem Derives.mem_language {rules : Assoc Body} {env : String → Language Char}
    (henv : ∀ name body, rules.get? name = some body → body.language env ≤ env name)
    {p : Phrase} {w : List Char} (h : Derives rules p w) : w ∈ p.language env := by
  induction h with
  | literal => exact Set.mem_singleton _
  | chars hc => exact ⟨_, hc, rfl⟩
  | rule hr _ ih => exact henv _ _ hr ih
  | group _ ih => exact ih
  | never => exact Set.mem_singleton _
  | again _ _ ihu ihv =>
    rw [Phrase.language, pow_succ']
    exact Language.append_mem_mul ihu ihv
  | empty => exact Set.mem_singleton _
  | cons hn _ _ ihu ihv =>
    rw [Phrase.language, sequenceLanguage, Item.language_eq]
    exact Language.append_mem_mul ⟨_, hn, ihu⟩ ihv
  | choice hmem _ ih => exact mem_choicesLanguage.mpr ⟨_, hmem, ih⟩

theorem Derives.times_of_mem_pow {rules : Assoc Body} {env : String → Language Char} {i : Item}
    (hi : ∀ w ∈ i.unit env, Derives rules (.single i) w) {n : Nat} {w : List Char}
    (h : w ∈ i.unit env ^ n) : Derives rules (.times i n) w := by
  induction n generalizing w with
  | zero =>
    rw [pow_zero, Language.mem_one] at h
    exact h ▸ .never
  | succ n ih =>
    rw [pow_succ', Language.mem_mul] at h
    obtain ⟨u, hu, v, hv, rfl⟩ := h
    exact .again (hi u hu) (ih hv)

mutual

theorem Derives.single_of_mem (rules : Assoc Body) :
    (i : Item) → ∀ w ∈ i.unit (derivable rules), Derives rules (.single i) w
  | .literal text count, w, hw => by
    rw [Item.unit, mem_word] at hw
    exact hw ▸ .literal
  | .chars set count, w, hw => by
    obtain ⟨c, hc, rfl⟩ := hw
    exact .chars hc
  | .rule name count, w, hw => by
    have hw : Derives rules (.single (.rule name .once)) w := hw
    cases hw with
    | rule h hw => exact .rule h hw
  | .group tight choices count, w, hw => .group (Derives.choice_of_mem rules choices w hw)

theorem Derives.sequence_of_mem (rules : Assoc Body) :
    (items : List Item) → ∀ w ∈ sequenceLanguage (derivable rules) items,
      Derives rules (.sequence items) w
  | [], w, hw => by
    rw [sequenceLanguage, Language.mem_one] at hw
    exact hw ▸ .empty
  | i :: items, w, hw => by
    rw [sequenceLanguage, Item.language_eq, Language.mem_mul] at hw
    obtain ⟨u, ⟨n, hn, hu⟩, v, hv, rfl⟩ := hw
    exact .cons hn (Derives.times_of_mem_pow (Derives.single_of_mem rules i) hu)
      (Derives.sequence_of_mem rules items v hv)

theorem Derives.choice_of_mem (rules : Assoc Body) :
    (choices : List (List Item)) → ∀ w ∈ choicesLanguage (derivable rules) choices,
      Derives rules (.choice choices) w
  | [], w, hw => by
    rw [choicesLanguage] at hw
    exact absurd hw (Language.notMem_zero w)
  | items :: choices, w, hw => by
    rw [choicesLanguage, Language.mem_add] at hw
    rcases hw with hw | hw
    · exact .choice List.mem_cons_self (Derives.sequence_of_mem rules items w hw)
    · cases Derives.choice_of_mem rules choices w hw with
      | choice h hw => exact .choice (List.mem_cons_of_mem _ h) hw

end

/-- The derivable words of a body are those of its language over the derivable words of the
rules. -/
theorem derives_choice_iff {rules : Assoc Body} {b : Body} {w : List Char} :
    Derives rules (.choice b.choices) w ↔ w ∈ b.language (derivable rules) := by
  refine ⟨fun h => h.mem_language fun name body hr v hv => ?_, Derives.choice_of_mem rules _ w⟩
  exact .rule hr (Derives.choice_of_mem rules _ v hv)

/-- What the rules say about an assignment of languages: each name has the words of its body, and
a name without a rule has none. -/
def ruleStep (rules : Assoc Body) (env : String → Language Char) (name : String) : Language Char :=
  match rules.get? name with
  | some body => body.language env
  | none => 0

theorem ruleStep_of_get? {rules : Assoc Body} {name : String} {body : Body}
    (h : rules.get? name = some body) (env : String → Language Char) :
    ruleStep rules env name = body.language env := by
  simp [ruleStep, h]

theorem ruleStep_of_none {rules : Assoc Body} {name : String} (h : rules.get? name = none)
    (env : String → Language Char) : ruleStep rules env name = 0 := by
  simp [ruleStep, h]

/-- The rules as a monotone operator on assignments. -/
def ruleOperator (rules : Assoc Body) :
    (String → Language Char) →o (String → Language Char) where
  toFun := ruleStep rules
  monotone' env env' h name := by
    cases hr : rules.get? name with
    | none => rw [ruleStep_of_none hr, ruleStep_of_none hr]
    | some body =>
      rw [ruleStep_of_get? hr, ruleStep_of_get? hr]
      exact body.language_mono h

theorem ruleOperator_of_get? {rules : Assoc Body} {name : String} {body : Body}
    (h : rules.get? name = some body) (env : String → Language Char) :
    ruleOperator rules env name = body.language env :=
  ruleStep_of_get? h env

/-- **Derivable words are the least solution of the rules.** -/
theorem derivable_eq_lfp (rules : Assoc Body) :
    derivable rules = OrderHom.lfp (ruleOperator rules) := by
  apply le_antisymm
  · have closed : ∀ name body, rules.get? name = some body →
        body.language (OrderHom.lfp (ruleOperator rules)) ≤
        OrderHom.lfp (ruleOperator rules) name := by
      intro name body h
      rw [← ruleOperator_of_get? h, OrderHom.map_lfp]
    intro name w hw
    exact Derives.mem_language closed hw
  · refine OrderHom.lfp_le _ fun name w hw => ?_
    cases hr : rules.get? name with
    | none =>
      have hw : w ∈ ruleStep rules (derivable rules) name := hw
      rw [ruleStep_of_none hr] at hw
      exact absurd hw (Language.notMem_zero w)
    | some body =>
      rw [ruleOperator_of_get? hr] at hw
      exact .rule hr (derives_choice_iff.mpr hw)

theorem derivable_of_get? {rules : Assoc Body} {name : String} {body : Body}
    (h : rules.get? name = some body) :
    derivable rules name = body.language (derivable rules) := by
  rw [derivable_eq_lfp, ← ruleOperator_of_get? h, OrderHom.map_lfp]

end Grammar

end SchemaGrammar
