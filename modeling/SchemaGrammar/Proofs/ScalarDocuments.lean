import SchemaGrammar.Proofs.ClosedGrammar
import SchemaGrammar.Proofs.ObjectMembers
import SchemaGrammar.Proofs.ScalarTokens

/-!
# Documents that are one scalar

A schema that asks for one type of scalars is lowered to a single leaf, and its grammar accepts the
words of the leaf with line breaks after them.

For strings this is where two ways to count meet. The grammar counts the units of the syntax, and
the check counts characters. A character above the basic plane may be written as a pair of escapes,
which are two units and one character, and an escape that is half of a pair without its other half
is one unit and no character at all. So a text that a grammar with bounds accepts is read exactly if
the halves stand in pairs, and passes exactly if there are enough units to make up for the pairs.
The upper bound cannot be missed, since there are never more characters than units.

## Main definitions

* `Json.Paired`: halves of pairs stand side by side.
* `boundedString`: the schema of strings of certain lengths.

## Main results

* `exists_compile_leaf`: the grammar of a document that is one leaf.
* `Json.IsUnits.exists_names_iff`: how many characters the units of a string stand for.
* `parse_boundedString`: which texts of a grammar for bounded strings can be parsed.
-/

namespace SchemaGrammar

open Grammar Json

/-! ## Leaves -/

theorem Shapes.language_leaf {shapes : Shapes} {id : ShapeId} {t : Terminal}
    (h : shapes.get? id = some (.terminal t)) : shapes.language (.shape id) = t.language := by
  rw [Shapes.language_eq, Shapes.step_of_get? h]
  rfl

section

variable {s : Schema} {external : Assoc Schema} {t : Terminal}

/-- A document of one type is lowered to a leaf if this type is. -/
theorem Lowering.exists_lower_leaf {layout : Layout} {type : TypeName}
    (hs : s.criterion = .types [type]) (hclash : s.clashes = false)
    (ht : ∀ lowerer place layout scope,
      typed s (s.parts.map lowerer) type place layout scope = push (.terminal t)) :
    ∃ lowered, lower s external layout = .ok lowered ∧
      lowered.shapes.get? lowered.root = some (.terminal t) := by
  let st₀ : Lowering := { registry := ScopeRegistry.declare {} (Scope.ofExternal external) }
  have hdocument : (document s external layout).run {} =
      (s.fold (step (follow (s.definitionTotal external))) [] layout
        (Scope.ofExternal external)).run st₀ := rfl
  rcases step_cases (follow (s.definitionTotal external))
      (·.fold (step (follow (s.definitionTotal external)))) s [] layout
      (Scope.ofExternal external) with ⟨hclash', -⟩ | ⟨-, hstep⟩
  · rw [hclash] at hclash'
    cases hclash'
  · rw [Schema.fold_eq, hstep, run_enter_bind, hs] at hdocument
    simp only [byCriterion, List.mapM_cons, List.mapM_nil, ht] at hdocument
    rw [lower, hdocument]
    exact ⟨_, rfl, Shapes.get?_push_self _ _⟩

/-- **The grammar of a document that is one leaf** accepts the words of the leaf, with line breaks
after them. -/
theorem exists_compile_leaf {options : Options} {lowered : Lowered}
    (hlower : lower s external options.layout = .ok lowered)
    (hget : lowered.shapes.get? lowered.root = some (.terminal t)) (ht : t ≠ .boolean) :
    ∃ c, CompiledSchema.compile s external options = .ok c ∧ c.schema = s ∧
      c.external = external ∧
      ∀ text, Accepts c.grammar text ↔ ∃ u ∈ t.language, ∃ k ≤ options.trailingNewLines,
        text.toList = u ++ List.replicate k '\n' := by
  obtain ⟨e, -, hrun, htext, -⟩ := exists_grammarText hlower
  have htruth : ¬ lowered.shapes.isTruthValue lowered.root = true := by
    rw [Shapes.isTruthValue_iff, hget]
    rintro ⟨⟩
    exact ht rfl
  refine ⟨⟨s, external, options, e.text options.trailingNewLines⟩, ?_, rfl, rfl, fun text => ?_⟩
  · rw [CompiledSchema.compile, htext]
    rfl
  · rw [accepts_text_of_not_isTruthValue (ready_lower hlower).1 hrun htruth,
      Shapes.language_leaf hget]

end

/-! ## Pairs of code units -/

namespace Json

/-- The code unit that a unit of the syntax stands for, if it is an escape of four digits. -/
def codeOf? : List Char → Option Nat
  | ['\\', 'u', a, b, c, d] => codeUnit? a b c d
  | _ => none

/-- `Paired units pairs`: every escape that is half of a pair stands beside its other half, and
there are `pairs` such pairs. -/
inductive Paired : List (List Char) → Nat → Prop
  | nil : Paired [] 0
  | whole {u : List Char} {units : List (List Char)} {pairs : Nat}
      (h : ∀ code ∈ codeOf? u, isLeading code = false ∧ isClosing code = false)
      (hs : Paired units pairs) : Paired (u :: units) pairs
  | halves {u u' : List Char} {units : List (List Char)} {pairs first second : Nat}
      (h : codeOf? u = some first) (h' : codeOf? u' = some second) (hl : isLeading first = true)
      (hc : isClosing second = true) (hs : Paired units pairs) :
      Paired (u :: u' :: units) (pairs + 1)

theorem exists_eq_of_codeOf? {u : List Char} {code : Nat} (h : codeOf? u = some code) :
    ∃ a b c d, u = ['\\', 'u', a, b, c, d] ∧ codeUnit? a b c d = some code := by
  unfold codeOf? at h
  split at h
  · exact ⟨_, _, _, _, rfl, h⟩
  · cases h

theorem IsHexDigit.exists_hexValue? {c : Char} (h : IsHexDigit c) : ∃ n, hexValue? c = some n := by
  unfold hexValue?
  split_ifs with hdigit hlower hupper
  · exact ⟨_, rfl⟩
  · exact ⟨_, rfl⟩
  · exact ⟨_, rfl⟩
  · simp only [Bool.and_eq_true, decide_eq_true_eq] at hlower hupper
    exact absurd h (by simp [IsHexDigit, hdigit, hlower, hupper])

theorem exists_codeUnit? {digits : List Char} (hl : digits.length = 4)
    (hd : ∀ c ∈ digits, IsHexDigit c) :
    ∃ a b c d code, digits = [a, b, c, d] ∧ codeUnit? a b c d = some code := by
  obtain ⟨a, b, c, d, rfl⟩ : ∃ a b c d, digits = [a, b, c, d] := by
    rcases digits with _ | ⟨a, _ | ⟨b, _ | ⟨c, _ | ⟨d, _ | ⟨e, rest⟩⟩⟩⟩⟩
    all_goals simp_all
  simp only [List.forall_mem_cons] at hd
  obtain ⟨m, hm⟩ := hd.1.exists_hexValue?
  obtain ⟨n, hn⟩ := hd.2.1.exists_hexValue?
  obtain ⟨o, ho⟩ := hd.2.2.1.exists_hexValue?
  obtain ⟨p, hp⟩ := hd.2.2.2.1.exists_hexValue?
  exact ⟨a, b, c, d, _, rfl, by rw [codeUnit?, hm, hn, ho, hp]; rfl⟩

/-- A unit that is not half of a pair spells a character. -/
theorem IsStringUnit.exists_spells {u : List Char} (hu : IsStringUnit u)
    (h : ∀ code ∈ codeOf? u, isLeading code = false ∧ isClosing code = false) :
    ∃ c, Spells u c := by
  cases hu with
  | plain hc hq hb => exact ⟨_, .plain (not_lt.mpr hc) hq hb⟩
  | @escape letter hletter =>
    have hsome : ∃ c, shortEscape? letter = some c := by
      simp only [List.mem_cons, List.not_mem_nil, or_false] at hletter
      rcases hletter with rfl | rfl | rfl | rfl | rfl | rfl | rfl | rfl <;> exact ⟨_, rfl⟩
    obtain ⟨c, hc⟩ := hsome
    exact ⟨c, .escape hc⟩
  | code hl hd =>
    obtain ⟨a, b, c, d, code, rfl, hcode⟩ := exists_codeUnit? hl hd
    obtain ⟨hleading, hclosing⟩ := h code hcode
    exact ⟨_, .code hcode hclosing hleading⟩

/-- Units whose halves stand in pairs spell a character each, but for one in a pair. -/
theorem Paired.exists_spelledBy {units : List (List Char)} {pairs : Nat} (h : Paired units pairs)
    (hunits : ∀ u ∈ units, IsStringUnit u) :
    ∃ chars, SpelledBy units.flatten chars ∧ chars.length + pairs = units.length := by
  induction h with
  | nil => exact ⟨[], .nil, rfl⟩
  | whole h _ ih =>
    obtain ⟨hu, hrest⟩ := List.forall_mem_cons.mp hunits
    obtain ⟨c, hc⟩ := hu.exists_spells h
    obtain ⟨chars, hchars, hlength⟩ := ih hrest
    refine ⟨c :: chars, .cons hc hchars, ?_⟩
    simp only [List.length_cons]
    omega
  | halves h h' hl hc _ ih =>
    obtain ⟨-, hrest⟩ := List.forall_mem_cons.mp hunits
    obtain ⟨-, hrest⟩ := List.forall_mem_cons.mp hrest
    obtain ⟨chars, hchars, hlength⟩ := ih hrest
    obtain ⟨a, b, c, d, rfl, hfirst⟩ := exists_eq_of_codeOf? h
    obtain ⟨a', b', c', d', rfl, hsecond⟩ := exists_eq_of_codeOf? h'
    have hpair := SpelledBy.cons (.pair hfirst hsecond hl hc) hchars
    refine ⟨_, hpair, ?_⟩
    simp only [List.length_cons]
    omega

/-- What spells characters consists of units whose halves stand in pairs. -/
theorem SpelledBy.exists_paired {w chars : List Char} (h : SpelledBy w chars) :
    ∃ units pairs, (∀ u ∈ units, IsStringUnit u) ∧ w = units.flatten ∧ Paired units pairs ∧
      chars.length + pairs = units.length := by
  induction h with
  | nil => exact ⟨[], 0, by simp, rfl, .nil, rfl⟩
  | @cons u w c chars hu _ ih =>
    obtain ⟨units, pairs, hunits, rfl, hpaired, hlength⟩ := ih
    -- a single unit that is not half of a pair
    have hsingle : IsStringUnit u →
        (∀ code ∈ codeOf? u, isLeading code = false ∧ isClosing code = false) →
        ∃ units' pairs', (∀ x ∈ units', IsStringUnit x) ∧ u ++ units.flatten = units'.flatten ∧
          Paired units' pairs' ∧ (c :: chars).length + pairs' = units'.length := by
      intro hunit hcode
      refine ⟨u :: units, pairs, List.forall_mem_cons.mpr ⟨hunit, hunits⟩, rfl,
        .whole hcode hpaired, ?_⟩
      simp only [List.length_cons]
      omega
    cases hu with
    | plain hc hq hb => exact hsingle (.plain (not_lt.mp hc) hq hb) (by simp [codeOf?])
    | @escape letter c h =>
      refine hsingle (.escape ?_) (by simp [codeOf?])
      unfold shortEscape? at h
      split at h <;> simp_all
    | @code a b c d unit h hc hl =>
      refine hsingle (isStringUnit_of_codeUnit? h) fun code hcode => ?_
      cases h.symm.trans hcode
      exact ⟨hl, hc⟩
    | @pair a b c d a' b' c' d' first second h h' hl hc =>
      refine ⟨['\\', 'u', a, b, c, d] :: ['\\', 'u', a', b', c', d'] :: units, pairs + 1, ?_, rfl,
        .halves h h' hl hc hpaired, ?_⟩
      · exact List.forall_mem_cons.mpr ⟨isStringUnit_of_codeUnit? h,
          List.forall_mem_cons.mpr ⟨isStringUnit_of_codeUnit? h', hunits⟩⟩
      · simp only [List.length_cons]
        omega

/-- **How many characters the units of a string stand for**: one each, but for one in a pair, and
only if the halves stand in pairs. -/
theorem IsUnits.exists_names_iff {units : List (List Char)} {w : List Char} (h : IsUnits units w)
    {n : Nat} :
    (∃ name, Names w name ∧ name.length = n) ↔
      ∃ pairs, Paired units pairs ∧ n + pairs = units.length := by
  constructor
  · rintro ⟨_, ⟨u, chars, hspelled, hw, rfl⟩, rfl⟩
    obtain ⟨units', pairs, hunits', rfl, hpaired, hlength⟩ := hspelled.exists_paired
    cases IsUnits.unique h ⟨hunits', hw⟩
    exact ⟨pairs, hpaired, by rwa [String.length_ofList]⟩
  · rintro ⟨pairs, hpaired, hlength⟩
    obtain ⟨chars, hspelled, hchars⟩ := hpaired.exists_spelledBy h.1
    refine ⟨String.ofList chars, ⟨_, chars, hspelled, h.2, rfl⟩, ?_⟩
    rw [String.length_ofList]
    omega

end Json

/-! ## Strings of certain lengths -/

/-- Strings of at least `least` and at most `most` characters. -/
def boundedString (least most : Option Nat) : Schema :=
  { types := some (.one .string), minLength := least, maxLength := most }

section

variable {least most : Option Nat} {external : Assoc Schema} {options : Options}

theorem least_getD_le (h : ∀ l ∈ least, ∀ m ∈ most, l ≤ m) : ∀ m ∈ most, least.getD 0 ≤ m := by
  intro m hm
  cases least with
  | none => exact Nat.zero_le m
  | some l => exact h l rfl m hm

theorem stringTerminal_boundedString (h : ∀ m ∈ most, least.getD 0 ≤ m) :
    Lowering.stringTerminal (boundedString least most) = .ok (.string ⟨least.getD 0, most⟩) := by
  cases most with
  | none => rfl
  | some m =>
    show (if m < least.getD 0 then _ else _) = _
    rw [if_neg (not_lt.mpr (h m rfl))]
    rfl

theorem validate_boundedString_iff (h : ∀ m ∈ most, least.getD 0 ≤ m) {name : String} :
    validate (boundedString least most) external (.string name) = .ok () ↔
      Within (least.getD 0) most name.length := by
  have hmost : most.map (max · (least.getD 0)) = most := by
    cases most with
    | none => rfl
    | some m => exact congrArg some (max_eq_left (h m rfl))
  have hstring : validate (boundedString least most) external (.string name) =
      ((Checking.string (boundedString least most) name []).run
        { registry := ScopeRegistry.declare {} (Scope.ofExternal external) }).1 := rfl
  have hcheck : Checking.string (boundedString least most) name [] =
      if Checking.within (least.getD 0) (most.map (max · (least.getD 0))) name.length then pure ()
      else Checking.fail []
        (.lengthCount (least.getD 0) (most.map (max · (least.getD 0))) name.length) := rfl
  rw [hstring, hcheck, hmost, ← Checking.within_iff]
  split_ifs with hwithin
  · exact iff_of_true rfl hwithin
  · exact iff_of_false (by rintro ⟨⟩) hwithin

/-- The grammar for strings of certain lengths. -/
theorem exists_compile_boundedString (h : ∀ m ∈ most, least.getD 0 ≤ m) (external : Assoc Schema)
    (options : Options) :
    ∃ c, CompiledSchema.compile (boundedString least most) external options = .ok c ∧
      c.schema = boundedString least most ∧ c.external = external ∧
      ∀ text, Accepts c.grammar text ↔ ∃ token k, ('\x7f' ∉ token ∧ ∃ units,
        IsUnits units token ∧ Within (least.getD 0) most units.length) ∧
        k ≤ options.trailingNewLines ∧ text.toList = token ++ List.replicate k '\n' := by
  obtain ⟨lowered, hlower, hget⟩ : ∃ lowered,
      lower (boundedString least most) external options.layout = .ok lowered ∧
        lowered.shapes.get? lowered.root = some (.terminal (.string ⟨least.getD 0, most⟩)) := by
    refine Lowering.exists_lower_leaf rfl rfl fun lowerer place layout scope => ?_
    rw [Lowering.typed, stringTerminal_boundedString h]
    rfl
  obtain ⟨c, hc, hschema, hexternal, haccepts⟩ := exists_compile_leaf hlower hget (by simp)
  refine ⟨c, hc, hschema, hexternal, fun text => (haccepts text).trans ?_⟩
  simp only [mem_string_iff, exists_and_left]

/-- What is parsed of a string token. -/
theorem parse_boundedString_iff (h : ∀ m ∈ most, least.getD 0 ≤ m) {c : CompiledSchema}
    (hschema : c.schema = boundedString least most) {units : List (List Char)} {token : List Char}
    (hunits : IsUnits units token) {k : Nat} {text : String}
    (htext : text.toList = token ++ List.replicate k '\n') {v : Value} :
    c.parse text = .ok v ↔ ∃ name, v = .string name ∧ Names token name ∧
      Within (least.getD 0) most name.length := by
  have hstring := isString_iff_exists_isUnits.mpr ⟨units, hunits⟩
  have hblank := isBlank_replicate (c := '\n') (by decide) k
  rw [CompiledSchema.parse_eq_ok_iff, parseDocument, parseNested_of_isString hstring hblank htext,
    hschema]
  constructor
  · rintro ⟨⟨name, rfl, hname⟩, hvalidate⟩
    exact ⟨name, rfl, hname, (validate_boundedString_iff h).mp hvalidate⟩
  · rintro ⟨name, rfl, hname, hwithin⟩
    exact ⟨⟨name, rfl, hname⟩, (validate_boundedString_iff h).mpr hwithin⟩

/-- **Which texts of a grammar for strings with bounds can be parsed.** Every text of the grammar is
a string token with an admitted number of units, line breaks aside. It can be parsed exactly if its
halves of pairs stand in pairs and the bound from below is met although every pair is one character;
then the value is the string that the token stands for, and its length is within the bounds. -/
theorem parse_boundedString (h : ∀ l ∈ least, ∀ m ∈ most, l ≤ m) (external : Assoc Schema)
    (options : Options) :
    ∃ c, CompiledSchema.compile (boundedString least most) external options = .ok c ∧
      ∀ text, Accepts c.grammar text → ∃ token units k,
        text.toList = token ++ List.replicate k '\n' ∧ IsUnits units token ∧
        Within (least.getD 0) most units.length ∧
        (∀ v, c.parse text = .ok v → ∃ name, v = .string name ∧ Names token name ∧
          Within (least.getD 0) most name.length) ∧
        ((∃ v, c.parse text = .ok v) ↔
          ∃ pairs, Paired units pairs ∧ least.getD 0 + pairs ≤ units.length) := by
  have hle := least_getD_le h
  obtain ⟨c, hc, hschema, -, haccepts⟩ := exists_compile_boundedString hle external options
  refine ⟨c, hc, fun text ha => ?_⟩
  obtain ⟨token, k, ⟨-, units, hunits, hwithin⟩, -, htext⟩ := (haccepts text).mp ha
  have hparse : ∀ v, c.parse text = .ok v ↔ ∃ name, v = .string name ∧ Names token name ∧
      Within (least.getD 0) most name.length := fun _ =>
    parse_boundedString_iff hle hschema hunits htext
  refine ⟨token, units, k, htext, hunits, hwithin, fun v => (hparse v).mp, ?_⟩
  constructor
  · rintro ⟨v, hv⟩
    obtain ⟨name, -, hname, hlength, -⟩ := (hparse v).mp hv
    obtain ⟨pairs, hpaired, hsum⟩ := hunits.exists_names_iff.mp ⟨name, hname, rfl⟩
    exact ⟨pairs, hpaired, by omega⟩
  · rintro ⟨pairs, hpaired, hlength⟩
    obtain ⟨name, hname, hsum⟩ := hunits.exists_names_iff.mpr
      ⟨pairs, hpaired, Nat.sub_add_cancel (Nat.le_of_add_left_le hlength)⟩
    refine ⟨.string name, (hparse _).mpr ⟨name, rfl, hname, by omega, fun m hm => ?_⟩⟩
    have := hwithin.2 m hm
    omega

end

/-- A character above the basic plane, written as a pair. -/
def surrogateText : String := "\"\\ud83d\\ude00\""

/-- The halves of the pair. -/
def surrogateUnits : List (List Char) :=
  [['\\', 'u', 'd', '8', '3', 'd'], ['\\', 'u', 'd', 'e', '0', '0']]

theorem isUnits_surrogateText : IsUnits surrogateUnits surrogateText.toList := by
  have hfirst : codeUnit? 'd' '8' '3' 'd' = some 0xd83d := rfl
  have hsecond : codeUnit? 'd' 'e' '0' '0' = some 0xde00 := rfl
  refine ⟨List.forall_mem_cons.mpr ⟨isStringUnit_of_codeUnit? hfirst, ?_⟩, rfl⟩
  exact List.forall_mem_singleton.mpr (isStringUnit_of_codeUnit? hsecond)

theorem names_surrogateText : Names surrogateText.toList "😀" := by
  have hpair : Spells surrogateUnits.flatten (ofPair 0xd83d 0xde00) := .pair rfl rfl rfl rfl
  exact ⟨_, _, .cons hpair .nil, rfl, by decide⟩

theorem accepts_surrogateText {least most : Option Nat} (hle : ∀ m ∈ most, least.getD 0 ≤ m)
    (hwithin : Within (least.getD 0) most 2) :
    ∃ c, CompiledSchema.compile (boundedString least most) [] {} = .ok c ∧
      c.schema = boundedString least most ∧ Accepts c.grammar surrogateText := by
  obtain ⟨c, hc, hschema, -, haccepts⟩ := exists_compile_boundedString hle [] {}
  refine ⟨c, hc, hschema, (haccepts _).mpr ⟨surrogateText.toList, 0, ⟨by decide, ?_⟩, ?_, ?_⟩⟩
  · exact ⟨surrogateUnits, isUnits_surrogateText, hwithin⟩
  · decide
  · simp

theorem parse_boundedString_surrogateText :
    ∃ c, CompiledSchema.compile (boundedString (some 1) (some 2)) [] {} = .ok c ∧
      Accepts c.grammar surrogateText ∧ c.parse surrogateText = .ok (.string "😀") ∧
      Within 1 (some 2) "😀".length := by
  have hle : ∀ m ∈ some 2, (some 1).getD 0 ≤ m := by simp
  have hlength : "😀".length = 1 := by decide
  obtain ⟨c, hc, hschema, haccepts⟩ := accepts_surrogateText hle (by simp [Within])
  have hparse : c.parse surrogateText = .ok (.string "😀") :=
    (parse_boundedString_iff (k := 0) hle hschema isUnits_surrogateText (by simp)).mpr
      ⟨"😀", rfl, names_surrogateText, by simp [Within, hlength]⟩
  obtain ⟨c', hc', hall⟩ := @parse_boundedString (some 1) (some 2) (by simp) [] {}
  cases hc.symm.trans hc'
  obtain ⟨_, _, _, _, _, _, hvalue, _⟩ := hall surrogateText haccepts
  obtain ⟨name, hname, -, hwithin⟩ := hvalue _ hparse
  cases hname
  exact ⟨c, hc, haccepts, hparse, hwithin⟩

/-- Two units are one character: the text has as many units as are asked for, and cannot be
parsed. -/
theorem not_parse_surrogateText :
    ∃ c, CompiledSchema.compile (boundedString (some 2) none) [] {} = .ok c ∧
      Accepts c.grammar surrogateText ∧ ∀ v, c.parse surrogateText ≠ .ok v := by
  have hle : ∀ m ∈ (none : Option Nat), (some 2).getD 0 ≤ m := by simp
  obtain ⟨c, hc, hschema, haccepts⟩ := accepts_surrogateText hle (by simp [Within])
  refine ⟨c, hc, haccepts, fun v hv => ?_⟩
  obtain ⟨name, -, hname, hlength, -⟩ :=
    (parse_boundedString_iff (k := 0) hle hschema isUnits_surrogateText (by simp)).mp hv
  cases hname.unique names_surrogateText
  exact absurd hlength (by decide)

end SchemaGrammar
