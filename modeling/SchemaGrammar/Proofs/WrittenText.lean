import SchemaGrammar.Proofs.Agreement
import SchemaGrammar.Proofs.LoweredTable
import SchemaGrammar.Proofs.ScalarText

/-!
# The text of an accepted document

A grammar fixes an order of the members of an object and derives fewer texts of strings and numbers
than there are. So not every document that a schema accepts has a derivable text. This module says
how far the two are apart: a document is derivable as soon as its members come in the order in which
a fragment declares them, with undeclared ones last, its strings have no delete character, its
numbers are not floating-point zeros, and its dates and times are ASCII.

The demand on members and on dates is made where a value is checked, as only there the fragment is
known.

A text also has blanks, and where a grammar allows which blanks depends on the level of nesting.
A **style** says what a text has there. What the tokens between the blanks are is the same in every
style, so the argument is made once: it follows the one that a value has the shape of the root, and
needs of a style only that its blanks are among those of each list and object on the way
(`Shapes.Suits`).

## Main definitions

* `Json.Value.isPlain`: no delete characters and no floating-point zeros.
* `Json.Style`, `Json.Value.written`: the text of a value in a style.
* `orderly`: what is asked of objects and of dates and times.
* `Shapes.Suits`: where a style may be used.

## Main results

* `Lowered.Represents.spells`: the text of an admitted value is a word of its shape.
-/

namespace SchemaGrammar

open Json (Value)
open Grammar

/-! ## Plain values -/

namespace Json.Value

mutual

/-- Whether no string and no name has a delete character, and no number is a floating-point zero. -/
def isPlain : Value → Bool
  | .null | .bool _ | .number (.integer _) => true
  | .number (.real x) => !(x == 0.0)
  | .string text => !text.toList.contains '\x7f'
  | .array items => plainItems items
  | .object members => plainMembers members

/-- Whether all items are plain. -/
def plainItems : List Value → Bool
  | [] => true
  | item :: items => isPlain item && plainItems items

/-- Whether all members are plain. -/
def plainMembers : List (String × Value) → Bool
  | [] => true
  | (key, value) :: members =>
    !key.toList.contains '\x7f' && isPlain value && plainMembers members

end

theorem isPlain_string_iff {text : String} :
    (string text).isPlain = true ↔ '\x7f' ∉ text.toList := by
  simp [isPlain]

theorem isPlain_array_iff {items : List Value} :
    (array items).isPlain = true ↔ ∀ v ∈ items, v.isPlain = true := by
  rw [isPlain]
  induction items with
  | nil => simp [plainItems]
  | cons item items ih => simp [plainItems, ih]

theorem isPlain_object_iff {members : List (String × Value)} :
    (object members).isPlain = true ↔
      ∀ m ∈ members, '\x7f' ∉ m.1.toList ∧ m.2.isPlain = true := by
  rw [isPlain]
  induction members with
  | nil => simp [plainMembers]
  | cons m members ih =>
    obtain ⟨key, value⟩ := m
    simp [plainMembers, ih]

/-! ## Texts -/

/-- The letters of the compact text of a value. -/
def letters (v : Value) : List Char := v.text.toList

/-- The letters of a member. -/
def memberLetters (m : String × Value) : List Char :=
  (stringText m.1).toList ++ ':' :: m.2.letters

theorem letters_eq (v : Value) : v.letters = v.pieces.flatMap String.toList := String.toList_join

theorem letters_scalar {v : Value} {text : String} (h : v.pieces = [text]) :
    v.letters = text.toList := by
  rw [letters_eq, h]
  simp

theorem letters_array (items : List Value) :
    (array items).letters = '[' :: List.intercalate [','] (items.map letters) ++ [']'] := by
  have hitems : (itemsPieces items).flatMap String.toList =
      List.intercalate [','] (items.map letters) := by
    induction items with
    | nil => rfl
    | cons item items ih =>
      cases items with
      | nil => simp [itemsPieces, letters_eq]
      | cons next items =>
        rw [List.map_cons, List.map_cons, List.intercalate_cons_cons, ← List.map_cons, ← ih]
        simp [itemsPieces, letters_eq]
  rw [letters_eq, pieces, ← hitems]
  simp

theorem letters_object (members : List (String × Value)) :
    (object members).letters =
      '\x7b' :: List.intercalate [','] (members.map memberLetters) ++ ['\x7d'] := by
  have hmembers : (membersPieces members).flatMap String.toList =
      List.intercalate [','] (members.map memberLetters) := by
    induction members with
    | nil => rfl
    | cons m members ih =>
      obtain ⟨key, value⟩ := m
      cases members with
      | nil => simp [membersPieces, memberLetters, letters_eq]
      | cons next members =>
        rw [List.map_cons, List.map_cons, List.intercalate_cons_cons, ← List.map_cons, ← ih]
        simp [membersPieces, memberLetters, letters_eq]
  rw [letters_eq, pieces, ← hmembers]
  simp

end Json.Value

namespace Json

/-! ## Styles -/

/-- The blanks of a text: `gap depth` is what stands before an entry, and before the closing bracket
of its container, at a level of nesting, and `space` what stands after a colon. -/
structure Style where
  gap : Nat → List Char
  space : List Char

namespace Style

/-- No blanks at all. -/
def compact : Style := ⟨fun _ => [], []⟩

/-- Every entry on a line of its own, indented by `unit` at each level, and a space after colons. -/
def indented (unit : List Char) : Style :=
  ⟨fun depth => '\n' :: (List.replicate depth unit).flatten, [' ']⟩

/-- Entries between brackets, at a level of nesting. Brackets without entries have no blanks. -/
def bracketed (style : Style) (depth : Nat) (opening closing : String)
    (entries : List (List Char)) : List Char :=
  if entries.isEmpty then opening.toList ++ closing.toList
  else
    opening.toList ++ style.gap (depth + 1) ++
      List.intercalate (',' :: style.gap (depth + 1)) entries ++ style.gap depth ++ closing.toList

theorem bracketed_nil (style : Style) (depth : Nat) (opening closing : String) :
    style.bracketed depth opening closing [] = opening.toList ++ closing.toList := rfl

theorem bracketed_cons (style : Style) (depth : Nat) (opening closing : String) (w : List Char)
    (ws : List (List Char)) :
    style.bracketed depth opening closing (w :: ws) =
      opening.toList ++ style.gap (depth + 1) ++
        List.intercalate (',' :: style.gap (depth + 1)) (w :: ws) ++ style.gap depth ++
        closing.toList := rfl

theorem bracketed_compact (depth : Nat) (opening closing : String) (ws : List (List Char)) :
    compact.bracketed depth opening closing ws =
      opening.toList ++ List.intercalate [','] ws ++ closing.toList := by
  cases ws with
  | nil => simp [bracketed_nil]
  | cons w ws => simp [bracketed_cons, compact]

/-- A member: its name, the colon and the text of the value. -/
def entry (style : Style) (key : String) (value : List Char) : List Char :=
  (stringText key).toList ++ ':' :: (style.space ++ value)

end Style

namespace Value

mutual

/-- The text of a value in a style, at a level of nesting. -/
def written (style : Style) (depth : Nat) : Value → List Char
  | .array items => style.bracketed depth "[" "]" (writtenItems style (depth + 1) items)
  | .object members =>
    style.bracketed depth "\x7b" "\x7d" (writtenMembers style (depth + 1) members)
  | v => v.letters

/-- The texts of items. -/
def writtenItems (style : Style) (depth : Nat) : List Value → List (List Char)
  | [] => []
  | item :: items => written style depth item :: writtenItems style depth items

/-- The texts of members. -/
def writtenMembers (style : Style) (depth : Nat) : List (String × Value) → List (List Char)
  | [] => []
  | (key, value) :: members =>
    style.entry key (written style depth value) :: writtenMembers style depth members

end

theorem written_array (style : Style) (depth : Nat) (items : List Value) :
    (array items).written style depth =
      style.bracketed depth "[" "]" (items.map (written style (depth + 1))) := by
  have hitems : writtenItems style (depth + 1) items = items.map (written style (depth + 1)) := by
    induction items with
    | nil => rfl
    | cons item items ih => rw [writtenItems, ih, List.map_cons]
  rw [written, hitems]

theorem written_object (style : Style) (depth : Nat) (members : List (String × Value)) :
    (object members).written style depth = style.bracketed depth "\x7b" "\x7d"
      (members.map fun m => style.entry m.1 (m.2.written style (depth + 1))) := by
  have hmembers : writtenMembers style (depth + 1) members =
      members.map fun m => style.entry m.1 (m.2.written style (depth + 1)) := by
    induction members with
    | nil => rfl
    | cons m members ih =>
      obtain ⟨key, value⟩ := m
      rw [writtenMembers, ih, List.map_cons]
  rw [written, hmembers]

/-- Without blanks, a text is the compact one. -/
theorem written_compact (depth : Nat) (v : Value) : v.written .compact depth = v.letters := by
  induction hn : v.depth using Nat.strong_induction_on generalizing v depth with
  | _ n ih =>
    cases v with
    | array items =>
      have hitems : items.map (written .compact (depth + 1)) = items.map letters :=
        List.map_congr_left fun u hu => ih u.depth (hn ▸ depth_lt_of_mem_items hu) _ u rfl
      rw [written_array, letters_array, hitems, Style.bracketed_compact]
      rfl
    | object members =>
      have hmembers : members.map (fun m => Style.compact.entry m.1
          (m.2.written .compact (depth + 1))) = members.map memberLetters := by
        refine List.map_congr_left fun m hm => ?_
        rw [ih m.2.depth (hn ▸ depth_lt_of_mem_members hm) _ m.2 rfl]
        rfl
      rw [written_object, letters_object, hmembers, Style.bracketed_compact]
      rfl
    | _ => rfl

end Value

end Json

/-! ## Containers -/

open Json (Style)

theorem Layout.nil_mem_blanks (l : Layout) : [] ∈ l.blanks := .inl (.inl rfl)

/-- The blanks of a style at a level of nesting are among those of a container, as is nothing. -/
structure Json.Style.Fits (style : Style) (depth : Nat) (inner outer : Language Char) : Prop where
  nil_inner : [] ∈ inner
  nil_outer : [] ∈ outer
  inner : style.gap (depth + 1) ∈ inner
  outer : style.gap depth ∈ outer
  space : style.space ∈ 1 + Lexeme.word " "

section

variable {style : Style} {depth : Nat} {inner outer : Language Char} {ws : List (List Char)}

theorem Json.Style.fits_compact (hi : [] ∈ inner) (ho : [] ∈ outer) :
    Style.compact.Fits depth inner outer :=
  ⟨hi, ho, hi, ho, .inl rfl⟩

theorem intercalate_mem_joined {gap : List Char} (hg : gap ∈ inner) {ls : List (Language Char)}
    (h : List.Forall₂ (· ∈ ·) ws ls) :
    List.intercalate (',' :: gap) ws ∈ joined (comma inner) ls := by
  induction h with
  | nil => exact Language.nil_mem_one
  | @cons w l ws ls hw hws ih =>
    cases hws with
    | nil => simpa [joined] using hw
    | cons hw' hws =>
      rw [List.intercalate_cons_cons, joined_cons_of_ne_nil (List.cons_ne_nil _ _)]
      have hcomma : ',' :: gap ∈ comma inner := Language.append_mem_mul (a := [',']) rfl hg
      exact Language.append_mem_mul (Language.append_mem_mul hw hcomma) ih

theorem mem_bracketForm (h : style.Fits depth inner outer) (opening closing : String)
    {possible : Prop} [Decidable possible] {inside : Language Char}
    (hw : List.intercalate (',' :: style.gap (depth + 1)) ws ∈ inside)
    (hpossible : ws ≠ [] → possible) :
    style.bracketed depth opening closing ws ∈
      bracketForm opening closing inner outer possible inside := by
  have hopen : opening.toList ∈ Lexeme.word opening := rfl
  have hclose : closing.toList ∈ Lexeme.word closing := rfl
  unfold bracketForm
  cases ws with
  | nil =>
    have hnil : [] ∈ inside := hw
    rw [Style.bracketed_nil]
    split_ifs
    · simpa using Language.append_mem_mul (Language.append_mem_mul (Language.append_mem_mul
        (Language.append_mem_mul hopen h.nil_inner) hnil) h.nil_outer) hclose
    · simpa using Language.append_mem_mul (Language.append_mem_mul hopen h.nil_outer) hclose
  | cons w ws =>
    rw [Style.bracketed_cons, if_pos (hpossible (List.cons_ne_nil w ws))]
    exact Language.append_mem_mul (Language.append_mem_mul (Language.append_mem_mul
      (Language.append_mem_mul hopen h.inner) hw) h.outer) hclose

/-- A list whose items are words of the languages for their positions. -/
theorem mem_listForm (h : style.Fits depth inner outer) {leading : List (Language Char)}
    {item : Language Char} {least : Nat} {most : Option Nat} (hleading : leading.length ≤ ws.length)
    (hcount : Within least most ws.length)
    (hws : ∀ (i : Nat) w, ws[i]? = some w → w ∈ leading[i]?.getD item) :
    style.bracketed depth "[" "]" ws ∈ listForm inner outer leading item least most := by
  obtain ⟨n, hn⟩ := Nat.exists_eq_add_of_le hleading
  have hall : List.Forall₂ (· ∈ ·) ws (leading ++ List.replicate n item) := by
    refine List.forall₂_iff_get.mpr ⟨by simp [hn], fun i hi hi' => ?_⟩
    have hw := hws i _ (List.getElem?_eq_getElem hi)
    by_cases hlead : i < leading.length
    · rw [List.getElem?_eq_getElem hlead] at hw
      simpa [List.getElem_append_left hlead] using hw
    · rw [List.getElem?_eq_none (not_lt.mp hlead)] at hw
      simpa [List.getElem_append_right (not_lt.mp hlead)] using hw
  refine mem_bracketForm h "[" "]" ⟨n, hn ▸ hcount, intercalate_mem_joined h.inner hall⟩ ?_
  rintro hne ⟨-, hmost⟩
  exact hne (List.eq_nil_of_length_eq_zero (Nat.le_zero.mp (hcount.2 0 hmost)))

theorem mem_entryForm (hs : style.space ∈ 1 + Lexeme.word " ") {key : String}
    {names value : Language Char} {v : List Char} (hk : (Json.stringText key).toList ∈ names)
    (hv : v ∈ value) : style.entry key v ∈ entryForm names value := by
  have hcolon : [':'] ∈ Lexeme.word ":" := rfl
  simpa [entryForm, Style.entry] using Language.append_mem_mul (Language.append_mem_mul
    (Language.append_mem_mul hk hcolon) hs) hv

/-- An object whose first members are words of chosen declared ones, and all others words of
additional ones. -/
theorem mem_objectForm (h : style.Fits depth inner outer)
    {declared chosen : List (Language Char × Bool)} {additional : Option (Language Char)}
    {more : List (List Char)} (hchosen : Chosen Prod.snd declared chosen)
    (hws : List.Forall₂ (· ∈ ·) ws (chosen.map Prod.fst))
    (hmore : ∀ w ∈ more, ∃ l, additional = some l ∧ w ∈ l) :
    style.bracketed depth "\x7b" "\x7d" (ws ++ more) ∈
      objectForm inner outer declared additional := by
  have hnone : additional = none → more = [] := by
    rintro rfl
    refine List.eq_nil_iff_forall_not_mem.mpr fun w hw => ?_
    obtain ⟨_, ⟨⟩, -⟩ := hmore w hw
  have hrest : List.Forall₂ (· ∈ ·) more (List.replicate more.length (additional.getD 0)) := by
    refine List.forall₂_iff_get.mpr ⟨by simp, fun i hi hi' => ?_⟩
    obtain ⟨l, rfl, hl⟩ := hmore _ (List.getElem_mem hi)
    simpa using hl
  refine mem_bracketForm h "\x7b" "\x7d"
    ⟨chosen, more.length, hchosen, fun h => by rw [hnone h]; rfl,
      intercalate_mem_joined h.inner (List.rel_append hws hrest)⟩ ?_
  rintro hne ⟨hdeclared, hadditional⟩
  rw [List.eq_nil_of_length_eq_zero hdeclared, chosen_nil_iff] at hchosen
  subst hchosen
  cases hws
  exact hne (hnone (Option.isNone_iff_eq_none.mp hadditional))

end

/-! ## Leaves -/

theorem Checking.within_iff {least : Nat} {most : Option Nat} {count : Nat} :
    Checking.within least most count = true ↔ Within least most count := by
  cases most <;> simp [Checking.within, Within]

theorem Json.Number.eq_of_same {m n : Json.Number} (h : m.same n = true)
    (hn : (Value.number n).isPlain = true) : m = n := by
  cases m with
  | integer m =>
    cases n with
    | integer n => exact congrArg _ (eq_of_beq h)
    | real y => cases h
  | real x =>
    cases n with
    | integer n => cases h
    | real y =>
      obtain ⟨-, -, heq | ⟨-, hy⟩ | ⟨-, hy⟩⟩ := Float.beq_iff_ne_nan_and_eq.mp h
      · rw [heq]
      · subst hy
        exact absurd hn (by decide)
      · subst hy
        exact absurd hn (by decide)

/-- The text of a value that a leaf allows is a word of the leaf. -/
theorem Terminal.letters_mem_language {t : Terminal} {v : Value} (hp : v.isPlain = true)
    (hascii : ∀ f text, t = .format f → v = .string text → ∀ c ∈ text.toList, c.toNat < 128)
    (h : t.admits v = true) : v.letters ∈ t.language := by
  unfold Terminal.admits at h
  split at h
  · exact Value.letters_scalar rfl
  · next b b' =>
    cases eq_of_beq h
    cases b <;> exact Value.letters_scalar rfl
  · next b =>
    cases b
    · exact .inr (Value.letters_scalar rfl)
    · exact .inl (Value.letters_scalar rfl)
  · next n n' =>
    cases Json.Number.eq_of_same h hp
    exact Value.letters_scalar rfl
  · next n =>
    rw [Value.letters_scalar rfl]
    exact n.text_mem
  · next n =>
    rw [Value.letters_scalar rfl]
    exact Json.integer_text_mem n
  · next text text' =>
    cases eq_of_beq h
    exact Value.letters_scalar rfl
  · next bounds text =>
    rw [Value.letters_scalar rfl]
    exact Json.stringText_mem (Value.isPlain_string_iff.mp hp) (Checking.within_iff.mp h)
  · next f text =>
    rw [Value.letters_scalar rfl]
    exact Json.stringText_mem_format (hascii f text rfl rfl) h
  · cases h

/-! ## Members in order -/

/-- Whether the names that are declared come first, in the order they are declared in. -/
def inOrder (declared names : List String) : Bool :=
  let present := declared.filter names.contains
  present.isPrefixOf names && (names.drop present.length).all (!declared.contains ·)

theorem forall₂_mem {α β : Type*} {R : α → β → Prop} {l : List α} {l' : List β}
    (h : List.Forall₂ R l l') : List.Forall₂ (fun a b => (a ∈ l ∧ b ∈ l') ∧ R a b) l l' := by
  rw [List.forall₂_iff_zip] at h ⊢
  exact ⟨h.1, fun hab => ⟨List.of_mem_zip hab, h.2 hab⟩⟩

/-- Members in order are those of the declared names that are present, then others. -/
theorem exists_append_of_inOrder {properties : List Property} {members : List (String × Value)}
    (hn : (properties.map Property.key).Nodup)
    (h : inOrder (properties.map Property.key) (Assoc.keys members) = true) :
    ∃ first rest, members = first ++ rest ∧
      List.Forall₂ (fun m p => m.1 = p.key ∧ Assoc.get? p.key members = some m.2) first
        (properties.filter fun p => Assoc.contains members p.key) ∧
      ∀ m ∈ rest, m.1 ∉ properties.map Property.key := by
  obtain ⟨hlead, hrest⟩ := Bool.and_eq_true_iff.mp h
  set present := properties.filter fun p => Assoc.contains members p.key with hpresent
  have hkeys : (properties.map Property.key).filter (Assoc.keys members).contains =
      present.map Property.key := by
    rw [hpresent, List.filter_map]
    refine congrArg _ (List.filter_congr fun p _ => ?_)
    rw [Function.comp_apply, Bool.eq_iff_iff, List.contains_iff_mem, Assoc.contains_iff]
  rw [hkeys] at hlead hrest
  have htake := List.prefix_iff_eq_take.mp (List.isPrefixOf_iff_prefix.mp hlead)
  have hfirst : Assoc.keys (members.take present.length) = present.map Property.key := by
    rw [htake, Assoc.keys, Assoc.keys, List.map_take, List.length_map]
  have hsplit := (List.take_append_drop present.length members).symm
  refine ⟨members.take present.length, members.drop present.length, hsplit, ?_, fun m hm => ?_⟩
  · have hnodup : (Assoc.keys (members.take present.length)).Nodup :=
      hfirst ▸ hn.sublist (List.filter_sublist.map _)
    have hget : ∀ m ∈ members.take present.length, Assoc.get? m.1 members = some m.2 :=
      fun m hm => by
        conv_lhs => rw [hsplit]
        exact Assoc.get?_append_of_mem hnodup hm _
    rw [Assoc.keys, ← List.forall₂_eq_eq_eq, List.forall₂_map_left_iff,
      List.forall₂_map_right_iff] at hfirst
    exact (forall₂_mem hfirst).imp fun m p hmp => ⟨hmp.2, hmp.2 ▸ hget m hmp.1.1⟩
  · have hname : m.1 ∈ (Assoc.keys members).drop (present.map Property.key).length := by
      rw [Assoc.keys, ← List.map_drop, List.length_map]
      exact List.mem_map_of_mem hm
    simpa using List.all_eq_true.mp hrest m.1 hname

theorem chosen_filter {α : Type*} {required present : α → Bool} {all : List α}
    (h : ∀ a ∈ all, required a = true → present a = true) :
    Chosen required all (all.filter present) := by
  induction all with
  | nil => exact .nil
  | cons a all ih =>
    obtain ⟨ha, hall⟩ := List.forall_mem_cons.mp h
    rw [List.filter_cons]
    split_ifs with hpresent
    · exact .take (ih hall)
    · exact .skip (by simpa using mt ha hpresent) (ih hall)

/-- Objects whose members come in the order of the declarations, and dates and times in ASCII. -/
def orderly : Schema.Demand := fun s v =>
  match s.criterion, v with
  | .types _, .object members => inOrder s.declared.keys (Assoc.keys members)
  | .types _, .string text => s.textFormat?.isNone || text.toList.all (·.toNat < 128)
  | _, _ => true

/-! ## Shapes -/

/-- The layout of a list or an object. -/
def Shape.layout? : Shape → Option Layout
  | .array shape => some shape.layout
  | .object shape => some shape.layout
  | _ => none

/-- If it is plain, the text of a value at a level of nesting is a word of a shape. -/
def Shapes.Spells (shapes : Shapes) (style : Style) (depth : Nat) (id : ShapeId) (v : Value) :
    Prop :=
  v.isPlain = true → v.written style depth ∈ shapes.language (.shape id)

/-- Where a style may be used: `Room depth id` is kept from a shape to those that it is made of, it
gives the blanks of the style, and whatever may stand there has its text in the style. -/
structure Shapes.Suits (shapes : Shapes) (style : Style) (Room : Nat → ShapeId → Prop) : Prop where
  space : style.space ∈ 1 + Lexeme.word " "
  gaps : ∀ {depth id shape layout}, Room depth id → shapes.get? id = some shape →
    shape.layout? = some layout →
      style.gap (depth + 1) ∈ layout.descend.blanks ∧ style.gap depth ∈ layout.blanks
  part : ∀ {depth id shape layout}, Room depth id → shapes.get? id = some shape →
    shape.layout? = some layout → ∀ p ∈ shape.parts, Room (depth + 1) p
  member : ∀ {depth id members}, Room depth id → shapes.get? id = some (.union members) →
    ∀ m ∈ members, Room depth m
  target : ∀ {depth id name target}, Room depth id →
    shapes.get? id = some (.reference name (some target)) → Room depth target
  free : ∀ {depth id}, Room depth id → shapes.IsFree id → ∀ v, shapes.Spells style depth id v

section

variable {shapes : Shapes} {style : Style} {depth : Nat} {Room : Nat → ShapeId → Prop}
  {sub : Schema → ShapeId → Prop} {s : Schema} {Y : Schema → Value → Prop} {id : ShapeId}
  {v : Value}

theorem Shapes.Suits.fits (hs : shapes.Suits style Room) {shape : Shape} {layout : Layout}
    (hroom : Room depth id) (hget : shapes.get? id = some shape)
    (hlayout : shape.layout? = some layout) :
    style.Fits depth layout.descend.blanks layout.blanks :=
  ⟨layout.descend.nil_mem_blanks, layout.nil_mem_blanks, (hs.gaps hroom hget hlayout).1,
    (hs.gaps hroom hget hlayout).2, hs.space⟩

theorem Shapes.mem_language_iff {shape : Shape} (hget : shapes.get? id = some shape)
    {w : List Char} :
    w ∈ shapes.language (.shape id) ↔ w ∈ Shapes.shapeStep shapes.language shape := by
  rw [Shapes.language_eq, Shapes.step_of_get? hget]

theorem Shapes.IsChoice.spells {members : List ShapeId} (h : shapes.IsChoice id members)
    {m : ShapeId} (hm : m ∈ members) (hs : shapes.Spells style depth m v) :
    shapes.Spells style depth id v := by
  obtain rfl | hget := h
  · exact List.mem_singleton.mp hm ▸ hs
  · exact fun hp => (Shapes.mem_language_iff hget).mpr ⟨m, hm, hs hp⟩

theorem Shapes.Suits.choice (hs : shapes.Suits style Room) (hroom : Room depth id)
    {members : List ShapeId} (h : shapes.IsChoice id members) : ∀ m ∈ members, Room depth m := by
  obtain rfl | hget := h
  · exact fun m hm => List.mem_singleton.mp hm ▸ hroom
  · exact hs.member hroom hget

/-- What a leaf allows is written without blanks. -/
theorem Terminal.written_of_admits {t : Terminal} (h : t.admits v = true) (style : Style)
    (depth : Nat) : v.written style depth = v.letters := by
  cases v with
  | array items => simp [Terminal.admits] at h
  | object members => simp [Terminal.admits] at h
  | _ => rfl

theorem spells_terminal {t : Terminal} (hget : shapes.get? id = some (.terminal t))
    (hascii : ∀ f text, t = .format f → v = .string text → ∀ c ∈ text.toList, c.toNat < 128)
    (h : t.admits v = true) : shapes.Spells style depth id v := by
  intro hp
  rw [Shapes.mem_language_iff hget, Terminal.written_of_admits h]
  exact Terminal.letters_mem_language hp hascii h

theorem Shapes.IsLiteral.spells {literal : Value} (h : shapes.IsLiteral literal id)
    (hs : literal.same v = true) : shapes.Spells style depth id v := by
  obtain ⟨t, ht, hget⟩ := h
  refine spells_terminal hget ?_ ((Terminal.admits_ofLiteral ht v).trans hs)
  -- The leaf of a literal is not that of a format.
  rintro f text rfl
  cases literal <;> cases ht

theorem spells_array {shape : ArrayShape} (hget : shapes.get? id = some (.array shape))
    (hfits : style.Fits depth shape.layout.descend.blanks shape.layout.blanks)
    (hw : (Shape.array shape).WellFormed) {values : List Value}
    (hcount : Checking.within shape.least shape.most values.length = true)
    (h : ∀ i v, values[i]? = some v → shapes.Spells style (depth + 1) (shape.itemAt i) v) :
    shapes.Spells style depth id (.array values) := by
  intro hp
  have hplain := Value.isPlain_array_iff.mp hp
  have hwithin := Checking.within_iff.mp hcount
  rw [Shapes.mem_language_iff hget, Value.written_array]
  refine mem_listForm hfits ?_ (by rwa [List.length_map]) fun i w hi => ?_
  · rw [List.length_map, List.length_map]
    exact hw.1.trans hwithin.1
  · rw [List.getElem?_map, Option.map_eq_some_iff] at hi
    obtain ⟨v, hv, rfl⟩ := hi
    have hitem := h i v hv (hplain v (List.mem_of_getElem? hv))
    rw [List.getElem?_map, Option.getD_map]
    exact hitem

theorem spells_object {shape : ObjectShape} (hget : shapes.get? id = some (.object shape))
    (hfits : style.Fits depth shape.layout.descend.blanks shape.layout.blanks)
    (hnodup : (shape.properties.map Property.key).Nodup) {members : List (String × Value)}
    (horder : inOrder (shape.properties.map Property.key) (Assoc.keys members) = true)
    (hrequired : ∀ p ∈ shape.properties, p.required = true → Assoc.contains members p.key = true)
    (hdeclared : ∀ p ∈ shape.properties, ∀ v, Assoc.get? p.key members = some v →
      shapes.Spells style (depth + 1) p.value v)
    (hothers : ∀ m ∈ members, m.1 ∉ shape.properties.map Property.key →
      ∃ extra, shape.additional = some extra ∧ shapes.Spells style (depth + 1) extra m.2) :
    shapes.Spells style depth id (.object members) := by
  intro hp
  have hplain := Value.isPlain_object_iff.mp hp
  obtain ⟨first, rest, hmembers, hfirst, hrest⟩ := exists_append_of_inOrder hnodup horder
  rw [Shapes.mem_language_iff hget, Value.written_object, hmembers, List.map_append]
  refine mem_objectForm hfits (chosen_map_iff.mpr ⟨_, chosen_filter hrequired, rfl⟩) ?_
    fun w hw => ?_
  · rw [List.map_map, List.forall₂_map_left_iff, List.forall₂_map_right_iff]
    refine (forall₂_mem hfirst).imp fun m p ⟨⟨hm, hp⟩, hkey, hvalue⟩ => ?_
    have hmem : m ∈ members := hmembers ▸ List.mem_append_left _ hm
    have hspells := hdeclared p (List.mem_filter.mp hp).1 m.2 (hmembers ▸ hvalue) (hplain m hmem).2
    exact mem_entryForm hfits.space (by rw [hkey]; rfl) hspells
  · obtain ⟨m, hm, rfl⟩ := List.mem_map.mp hw
    have hmem : m ∈ members := hmembers ▸ List.mem_append_right _ hm
    obtain ⟨extra, hextra, hspells⟩ := hothers m hmem (hrest m hm)
    obtain ⟨hkey, hvalue⟩ := hplain m hmem
    refine ⟨_, by rw [hextra]; rfl, mem_entryForm hfits.space ?_ (hspells hvalue)⟩
    exact Json.stringText_mem hkey ⟨Nat.zero_le _, by simp⟩

theorem ArrayShape.itemAt_mem_parts (shape : ArrayShape) (i : Nat) :
    shape.itemAt i ∈ (Shape.array shape).parts := by
  unfold itemAt
  cases hi : shape.leading[i]? with
  | none => exact List.mem_append_right _ List.mem_cons_self
  | some id => exact List.mem_append_left _ (List.mem_of_getElem? hi)

/-- What a fragment asks for a type has a text that is a word of the shape for that type. -/
theorem RepresentsAs.spells (hsuits : shapes.Suits style Room) (hroom : Room depth id)
    (hw : shapes.WellFormed)
    (hnodup : ∀ id shape, shapes.get? id = some (.object shape) →
      (shape.properties.map Property.key).Nodup)
    (h : ∀ c id v, sub c id → Y c v → Room (depth + 1) id → shapes.Spells style (depth + 1) id v)
    {type : TypeName} (hr : RepresentsAs shapes sub s type id) (hv : s.AdmitsAs Y type v)
    (horder : ∀ members, v = .object members →
      inOrder s.declared.keys (Assoc.keys members) = true)
    (hascii : ∀ text, v = .string text →
      s.textFormat?.isNone = true ∨ ∀ c ∈ text.toList, c.toNat < 128) :
    shapes.Spells style depth id v := by
  obtain ⟨shape, hget, hholds⟩ := hr.holds h (fun _ v hf hroom' => hsuits.free hroom' hf v) hv
  cases type with
  | object =>
    obtain ⟨object, hget', hproperties, -⟩ := hr
    cases hget.symm.trans hget'
    have hpart := hsuits.part hroom hget rfl
    cases v with
    | object members =>
      obtain ⟨hrequired, hdeclared, hothers⟩ := hholds
      refine spells_object hget (hsuits.fits hroom hget rfl) (hnodup id object hget)
        (map_key_eq hproperties ▸ horder members rfl) hrequired (fun p hp v hv => ?_)
        fun m hm hkey => ?_
      · exact hdeclared p hp v hv
          (hpart p.value (List.mem_append_left _ (List.mem_map_of_mem hp)))
      · obtain ⟨extra, hextra, hspells⟩ := hothers m hm hkey
        have hmem : extra ∈ object.additional.toList := Option.mem_toList.mpr hextra
        exact ⟨extra, hextra, hspells (hpart extra (List.mem_append_right _ hmem))⟩
    | _ => exact absurd hholds (by simp [Shape.Holds])
  | array =>
    obtain ⟨array, hget', -⟩ := hr
    cases hget.symm.trans hget'
    have hpart := hsuits.part hroom hget rfl
    cases v with
    | array values =>
      exact spells_array hget (hsuits.fits hroom hget rfl) (hw id _ hget) hholds.1
        fun i v hv' => hholds.2 i v hv' (hpart _ (array.itemAt_mem_parts i))
    | _ => exact absurd hholds (by simp [Shape.Holds])
  | string =>
    obtain ⟨t, ht, hget'⟩ := hr
    cases hget.symm.trans hget'
    refine spells_terminal hget ?_ hholds
    rintro f text rfl rfl
    obtain ⟨format, hformat, -⟩ | ⟨-, hne, -⟩ := Lowering.stringTerminal_cases ht
    · exact (hascii text rfl).resolve_left (by simp [hformat])
    · cases hne
  | number | integer | boolean | null =>
    cases hget.symm.trans hr
    refine spells_terminal hget ?_ hholds
    rintro f text ⟨⟩

end

/-! ## Documents -/

/-- **The text of an admitted value is a word of the shape that represents the fragment**, if the
members of its objects are in order and its dates and times are ASCII. -/
theorem Lowered.Represents.spells {lowered : Lowered} {s : Schema} {external : Assoc Schema}
    {standing : Standing} (h : lowered.Represents s external standing)
    (hw : lowered.shapes.WellFormed)
    (hnodup : ∀ id shape, lowered.shapes.get? id = some (.object shape) →
      (shape.properties.map Property.key).Nodup)
    {style : Style} {Room : Nat → ShapeId → Prop} (hsuits : lowered.shapes.Suits style Room)
    {env : Env} {t : Schema} {depth : Nat} {id : ShapeId} {v : Value} (hroom : Room depth id)
    (hr : SchemaGrammar.Represents lowered.shapes standing env t id)
    (hv : Schema.Admits orderly ∅ env t v) : lowered.shapes.Spells style depth id v := by
  let Y : Schema.Meaning := fun _ env t v => ∀ depth id, Room depth id →
    SchemaGrammar.Represents lowered.shapes standing env t id →
      lowered.shapes.Spells style depth id v
  refine Schema.Admits.induction (Y := Y) (fun _ env t v hm hdemand depth id hroom hr => ?_) hv
    depth id hroom hr
  rw [represents_iff] at hr
  unfold orderly at hdemand
  cases hc : t.criterion with
  | reference text =>
    rw [hc] at hm hr
    obtain ⟨name, c, hname, hfind, -, hy⟩ := hm
    obtain ⟨name', c', hname', hfind', hstanding⟩ := hr
    cases hname.symm.trans hname'
    cases hfind.symm.trans hfind'
    obtain ⟨target, hget, hbody⟩ := h.settled name c id hstanding
    exact fun hp => (Shapes.mem_language_iff hget).mpr
      (hy depth target (hsuits.target hroom hget) hbody hp)
  | union placed branches =>
    rw [hc] at hm hr
    obtain ⟨b, hb, hy⟩ := hm
    obtain ⟨-, members, hchoice, hbranches⟩ := hr
    obtain ⟨m, hm, hbm⟩ := exists_mem_right hbranches hb
    exact hchoice.spells hm (hy depth m (hsuits.choice hroom hchoice m hm) hbm)
  | constant expected =>
    rw [hc] at hm hr
    exact hr.spells (hr.same_comm.symm.trans hm)
  | enumeration values =>
    rw [hc] at hm hr
    obtain ⟨value, hvalue, hsame⟩ := hm
    obtain ⟨members, hget, hmembers⟩ := hr
    obtain ⟨m, hm, hliteral⟩ := exists_mem_right hmembers hvalue
    exact fun hp => (Shapes.mem_language_iff hget).mpr ⟨m, hm, hliteral.spells hsame hp⟩
  | types types =>
    rw [hc] at hm hr hdemand
    obtain ⟨type, htype, hv⟩ := hm
    obtain ⟨members, hchoice, htypes⟩ := hr
    obtain ⟨m, hm, -, hrm⟩ := exists_mem_right htypes htype
    refine hchoice.spells hm (hrm.spells hsuits (hsuits.choice hroom hchoice m hm) hw hnodup
      (fun c id v hr hy hroom => hy (depth + 1) id hroom hr) hv ?_ ?_)
    · rintro members rfl
      exact hdemand
    · rintro text rfl
      simpa using hdemand
  | anything =>
    rw [hc] at hr
    exact hsuits.free hroom hr v

section

variable {s : Schema} {external : Assoc Schema} {v : Value}

/-- Objects name no property twice if the schema does not. -/
theorem nodup_keys_of_lower {layout : Layout} {lowered : Lowered} (hd : DistinctNames s external)
    (h : lower s external layout = .ok lowered) (id : ShapeId) (shape : ObjectShape)
    (hget : lowered.shapes.get? id = some (.object shape)) :
    (shape.properties.map Property.key).Nodup := by
  obtain ⟨-, -, -, -, hregular⟩ := lower_tidy (fun t => t.isDistinct = true)
    (fun t ht => (Schema.isDistinct_iff.mp ht).2.2) hd.schema hd.external h
  obtain ⟨t, ht, hkeys⟩ := hregular hget
  exact hkeys ▸ (Schema.isDistinct_iff.mp ht).1

/-- The text of an accepted document, in a style that may be used at the root, is a word of the
shape of the root. -/
theorem written_mem_language_of_validateUnder {layout : Layout} {lowered : Lowered}
    (hd : DistinctNames s external) (hs : LexicallyScoped s external)
    (h : lower s external layout = .ok lowered) {style : Style} {Room : Nat → ShapeId → Prop}
    (hsuits : lowered.shapes.Suits style Room) (hroom : Room 0 lowered.root)
    (hv : validateUnder orderly s external v = .ok ()) (hp : v.isPlain = true) :
    v.written style 0 ∈ lowered.shapes.language (.shape lowered.root) := by
  obtain ⟨standing, hrep⟩ := lower_represents hd hs h
  exact hrep.spells (wellFormed_lower h) (nodup_keys_of_lower hd h) hsuits hroom hrep.root
    ((validateUnder_iff hd hs orderly v).mp hv) hp

end

end SchemaGrammar
