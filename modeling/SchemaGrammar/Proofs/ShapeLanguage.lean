import SchemaGrammar.Proofs.Combinators
import SchemaGrammar.Shape.Basic

/-!
# Languages of shapes

What documents of a shape look like as text, said without rules, names or bodies. Every leaf has a
language of its own. Lists and objects are brackets around their entries, with commas between two
of them and blanks after the opening bracket, after every comma and before the closing one. A
choice is a union and a reference is its target.

Shapes may be cyclic, so these equations do not define the languages by recursion. They are read as
one monotone operator on assignments of languages, and the languages of the shapes are its least
solution: a document has a shape if a finite argument says so.

## Free-form values

Any JSON value is a scalar, or a list or an object whose nested values are on a single line. A
single line looks the same at every depth, so the values on a single line are one more unknown
of the equations, `Node.line`.

## Main definitions

* `Terminal.language`: the words of a leaf.
* `listForm`, `objectForm`, `jsonForm`: the words of containers, given those of their parts.
* `Shapes.operator`, `Shapes.language`: the equations, and their least solution.

## Main results

* `Shapes.language_eq`: the languages solve the equations.
* `Shapes.language_le`: they are below every assignment that is closed under the equations.
-/

namespace SchemaGrammar

open Grammar
open scoped Computability

/-! ## Lexemes -/

namespace Lexeme

/-- Just this text. -/
def word (text : String) : Language Char := {text.toList}

/-- One character from `first` to `last`. -/
def between (first last : Char) : Language Char :=
  {w | ∃ c, (first.toNat ≤ c.toNat ∧ c.toNat ≤ last.toNat) ∧ w = [c]}

/-- One of the characters of `members`. -/
def among (members : String) : Language Char := {w | ∃ c, c ∈ members.toList ∧ w = [c]}

theorem mem_word {text : String} {w : List Char} : w ∈ word text ↔ w = text.toList := Iff.rfl

theorem word_mul_word (a b : String) : word a * word b = word (a ++ b) := by
  ext w
  simp [Language.mem_mul, mem_word, eq_comm]

theorem mem_between {first last : Char} {w : List Char} :
    w ∈ between first last ↔ ∃ c, (first.toNat ≤ c.toNat ∧ c.toNat ≤ last.toNat) ∧ w = [c] :=
  Iff.rfl

theorem mem_among {members : String} {w : List Char} :
    w ∈ among members ↔ ∃ c, c ∈ members.toList ∧ w = [c] :=
  Iff.rfl

/-- A digit. -/
def digit : Language Char := between '0' '9'

/-- At least one digit. -/
def digits : Language Char := digit * digit∗

/-- An integer without leading zeros. -/
def integer : Language Char := (1 + word "-") * (digit + between '1' '9' * digit∗)

/-- A number: an integer, then a fraction and an exponent, if any. -/
def number : Language Char :=
  integer * (1 + word "." * digits) * (1 + among "eE" * (1 + among "-+") * digits)

/-- A character that stands for itself between quotes: not a quote, a backslash or a control. -/
def plain : Language Char :=
  {w | ∃ c : Char, (c ≠ '"' ∧ c ≠ '\\' ∧ c ≠ '\x7f' ∧ ¬ c.toNat < 0x20) ∧ w = [c]}

theorem mem_plain {w : List Char} :
    w ∈ plain ↔ ∃ c : Char, (c ≠ '"' ∧ c ≠ '\\' ∧ c ≠ '\x7f' ∧ ¬ c.toNat < 0x20) ∧ w = [c] :=
  Iff.rfl

/-- A digit of base sixteen. -/
def hexDigit : Language Char := digit + between 'a' 'f' + between 'A' 'F'

/-- What stands for one character between quotes. -/
def stringUnit : Language Char :=
  plain + word "\\" * among "\"\\/bfnrt" + word "\\u" * hexDigit ^ 4

/-- Words between quotes. -/
def quoted (l : Language Char) : Language Char := word "\"" * l * word "\""

/-- Between `least` and `most` words of `l` in a row. -/
def counted (bounds : LengthBounds) (l : Language Char) : Language Char :=
  {w | ∃ k, Within bounds.least bounds.most k ∧ w ∈ l ^ k}

theorem mem_counted {bounds : LengthBounds} {l : Language Char} {w : List Char} :
    w ∈ counted bounds l ↔ ∃ k, Within bounds.least bounds.most k ∧ w ∈ l ^ k :=
  Iff.rfl

/-- A year, a month and a day. -/
def date : Language Char :=
  digit ^ 4 * word "-" * (word "0" * between '1' '9' + word "1" * among "012") * word "-" *
    (word "0" * between '1' '9' + among "12" * digit + word "3" * among "01")

/-- The hours of a day. -/
def hours : Language Char := among "01" * digit + word "2" * between '0' '3'

/-- The minutes of an hour, or the seconds of a minute. -/
def minutes : Language Char := between '0' '5' * digit

/-- A time of day with its time zone. -/
def time : Language Char :=
  hours * word ":" * minutes * word ":" * minutes * (1 + word "." * digit ^ 3) *
    (word "Z" + (word "+" + word "-") * hours * word ":" * minutes)

end Lexeme

/-! ## Leaves -/

/-- The ways a line can be indented: by spaces, if the level has any, or by tabs. -/
def Layout.indentations (l : Layout) : List (List Char) :=
  if l.padding = 0 then [List.replicate l.depth '\t']
  else [List.replicate l.padding ' ', List.replicate l.depth '\t']

/-- The blanks between two tokens: nothing, one space, or a line break and an indentation. -/
def Layout.blanks (l : Layout) : Language Char :=
  {w | (w = [] ∨ w = [' ']) ∨ l.newLines ∧ ∃ indent ∈ l.indentations, w = '\n' :: indent}

theorem Layout.mem_blanks {l : Layout} {w : List Char} :
    w ∈ l.blanks ↔
      (w = [] ∨ w = [' ']) ∨ l.newLines ∧ ∃ indent ∈ l.indentations, w = '\n' :: indent :=
  Iff.rfl

/-- The words of a string in a format, without the quotes. -/
def TextFormat.language : TextFormat → Language Char
  | .date => Lexeme.date
  | .time => Lexeme.time
  | .dateTime => Lexeme.date * Lexeme.word "T" * Lexeme.time

/-- The words of a leaf. -/
def Terminal.language : Terminal → Language Char
  | .null => Lexeme.word "null"
  | .booleanLiteral b => Lexeme.word (if b then "true" else "false")
  | .boolean => Lexeme.word "true" + Lexeme.word "false"
  | .numberLiteral n => Lexeme.word n.text
  | .number false => Lexeme.integer
  | .number true => Lexeme.number
  | .stringLiteral text => Lexeme.word (Json.stringText text)
  | .string bounds => Lexeme.quoted (Lexeme.counted bounds Lexeme.stringUnit)
  | .format f => Lexeme.quoted f.language
  | .verbatim text => Lexeme.word text
  | .whitespace layout => layout.blanks
  | .stringChar => Lexeme.stringUnit

/-! ## Containers

The forms of this section are given the languages of all that a container is made of; `inner` are
the blanks after the opening bracket and after commas, `outer` those before the closing bracket. -/

/-- Brackets around `inside`. Where no entry is possible, only the outer blanks remain. -/
def bracketForm (opening closing : String) (inner outer : Language Char) (possible : Prop)
    [Decidable possible] (inside : Language Char) : Language Char :=
  if possible then Lexeme.word opening * inner * inside * outer * Lexeme.word closing
  else Lexeme.word opening * outer * Lexeme.word closing

/-- What stands between two entries. -/
def comma (inner : Language Char) : Language Char := Lexeme.word "," * inner

/-- The elements of a list: the leading ones, then as many further ones as the bounds admit. -/
def elements (inner : Language Char) (leading : List (Language Char)) (item : Language Char)
    (least : Nat) (most : Option Nat) : Language Char :=
  {w | ∃ n, Within least most (leading.length + n) ∧
    w ∈ joined (comma inner) (leading ++ List.replicate n item)}

theorem mem_elements {inner item : Language Char} {leading : List (Language Char)} {least : Nat}
    {most : Option Nat} {w : List Char} :
    w ∈ elements inner leading item least most ↔
      ∃ n, Within least most (leading.length + n) ∧
        w ∈ joined (comma inner) (leading ++ List.replicate n item) :=
  Iff.rfl

/-- A list. -/
def listForm (inner outer : Language Char) (leading : List (Language Char))
    (item : Language Char) (least : Nat) (most : Option Nat) : Language Char :=
  bracketForm "[" "]" inner outer (¬ (leading.length = 0 ∧ most = some 0))
    (elements inner leading item least most)

/-- `Chosen required all chosen`: some of the entries of `all`, in order, among them all that are
required. -/
inductive Chosen {α : Type*} (required : α → Bool) : List α → List α → Prop
  | nil : Chosen required [] []
  | take {a : α} {all chosen : List α} (h : Chosen required all chosen) :
      Chosen required (a :: all) (a :: chosen)
  | skip {a : α} {all chosen : List α} (ha : required a = false) (h : Chosen required all chosen) :
      Chosen required (a :: all) chosen

theorem chosen_nil_iff {α : Type*} {required : α → Bool} {chosen : List α} :
    Chosen required [] chosen ↔ chosen = [] := by
  constructor
  · intro h
    cases h
    rfl
  · rintro rfl
    exact .nil

theorem chosen_cons_iff {α : Type*} {required : α → Bool} {a : α} {all chosen : List α} :
    Chosen required (a :: all) chosen ↔
      (∃ rest, chosen = a :: rest ∧ Chosen required all rest) ∨
        required a = false ∧ Chosen required all chosen := by
  constructor
  · intro h
    cases h with
    | take h => exact .inl ⟨_, rfl, h⟩
    | skip ha h => exact .inr ⟨ha, h⟩
  · rintro (⟨rest, rfl, h⟩ | ⟨ha, h⟩)
    · exact .take h
    · exact .skip ha h

theorem chosen_map_iff {α β : Type*} {required : β → Bool} {f : α → β} {all : List α}
    {chosen : List β} :
    Chosen required (all.map f) chosen ↔
      ∃ c, Chosen (fun a => required (f a)) all c ∧ chosen = c.map f := by
  induction all generalizing chosen with
  | nil => simp [chosen_nil_iff]
  | cons a all ih =>
    simp only [List.map_cons, chosen_cons_iff, ih]
    constructor
    · rintro (⟨_, rfl, c, hc, rfl⟩ | ⟨ha, c, hc, rfl⟩)
      · exact ⟨a :: c, .inl ⟨c, rfl, hc⟩, rfl⟩
      · exact ⟨c, .inr ⟨ha, hc⟩, rfl⟩
    · rintro ⟨_, ⟨c, rfl, hc⟩ | ⟨ha, hc⟩, rfl⟩
      · exact .inl ⟨_, rfl, c, hc, rfl⟩
      · exact .inr ⟨ha, _, hc, rfl⟩

theorem Chosen.ne_nil {α : Type*} {required : α → Bool} {all chosen : List α}
    (h : Chosen required all chosen) {a : α} (ha : a ∈ all) (hr : required a = true) :
    chosen ≠ [] := by
  induction h with
  | nil => exact absurd ha List.not_mem_nil
  | take _ _ => exact List.cons_ne_nil _ _
  | skip hb _ ih =>
    rcases List.mem_cons.mp ha with rfl | ha
    · simp [hr] at hb
    · exact ih ha

/-- A member of an object. -/
def entryForm (key value : Language Char) : Language Char :=
  key * Lexeme.word ":" * (1 + Lexeme.word " ") * value

/-- The members of an object: the declared ones that are present, in order, then any number of
additional ones. -/
def memberList (inner : Language Char) (declared : List (Language Char × Bool))
    (additional : Option (Language Char)) : Language Char :=
  {w | ∃ chosen n, Chosen Prod.snd declared chosen ∧ (additional = none → n = 0) ∧
    w ∈ joined (comma inner) (chosen.map Prod.fst ++ List.replicate n (additional.getD 0))}

theorem mem_memberList {inner : Language Char} {declared : List (Language Char × Bool)}
    {additional : Option (Language Char)} {w : List Char} :
    w ∈ memberList inner declared additional ↔
      ∃ chosen n, Chosen Prod.snd declared chosen ∧ (additional = none → n = 0) ∧
        w ∈ joined (comma inner)
          (chosen.map Prod.fst ++ List.replicate n (additional.getD 0)) :=
  Iff.rfl

/-- An object. -/
def objectForm (inner outer : Language Char) (declared : List (Language Char × Bool))
    (additional : Option (Language Char)) : Language Char :=
  bracketForm "\x7b" "\x7d" inner outer (¬ (declared.length = 0 ∧ additional.isNone))
    (memberList inner declared additional)

/-- A list of any number of `nested` values. -/
def freeList (layout : Layout) (nested : Language Char) : Language Char :=
  listForm layout.descend.blanks layout.blanks [] nested 0 none

/-- An object of any number of `nested` values. -/
def freeObject (layout : Layout) (nested : Language Char) : Language Char :=
  objectForm layout.descend.blanks layout.blanks []
    (some (entryForm (Terminal.string {}).language nested))

/-- Any JSON value, given those that may be nested in it. -/
def jsonForm (layout : Layout) (nested : Language Char) : Language Char :=
  (Terminal.string {}).language + (Terminal.number true).language + Terminal.boolean.language +
    Terminal.null.language + freeList layout nested + freeObject layout nested

/-! ### Monotonicity -/

theorem joined_le_joined {s s' : Language Char} (hs : s ≤ s') {ls ls' : List (Language Char)}
    (h : List.Forall₂ (· ≤ ·) ls ls') : joined s ls ≤ joined s' ls' := by
  have hprod : ∀ {ls ls' : List (Language Char)}, List.Forall₂ (· ≤ ·) ls ls' →
      (ls.map (s * ·)).prod ≤ (ls'.map (s' * ·)).prod := by
    intro ls ls' h
    induction h with
    | nil => exact le_refl 1
    | cons hl _ ih =>
      rw [List.map_cons, List.map_cons, List.prod_cons, List.prod_cons]
      exact mul_le_mul' (mul_le_mul' hs hl) ih
  cases h with
  | nil => exact le_refl 1
  | cons hl h => exact mul_le_mul' hl (hprod h)

theorem forall₂_replicate {α β : Type*} {R : α → β → Prop} {a : α} {b : β} (h : R a b) (n : Nat) :
    List.Forall₂ R (List.replicate n a) (List.replicate n b) := by
  induction n with
  | zero => exact .nil
  | succ n ih => exact .cons h ih

section

variable {inner inner' outer outer' : Language Char}

theorem bracketForm_mono {opening closing : String} {possible : Prop} [Decidable possible]
    {inside inside' : Language Char} (hi : inner ≤ inner') (ho : outer ≤ outer')
    (h : inside ≤ inside') :
    bracketForm opening closing inner outer possible inside ≤
      bracketForm opening closing inner' outer' possible inside' := by
  unfold bracketForm
  split
  · gcongr
  · gcongr

theorem listForm_mono {leading leading' : List (Language Char)} {item item' : Language Char}
    {least : Nat} {most : Option Nat} (hi : inner ≤ inner') (ho : outer ≤ outer')
    (hl : List.Forall₂ (· ≤ ·) leading leading') (h : item ≤ item') :
    listForm inner outer leading item least most ≤
      listForm inner' outer' leading' item' least most := by
  unfold listForm
  rw [hl.length_eq]
  refine bracketForm_mono hi ho ?_
  rintro w ⟨n, hn, hw⟩
  refine ⟨n, hl.length_eq ▸ hn, joined_le_joined (mul_le_mul' le_rfl hi) ?_ hw⟩
  exact List.rel_append hl (forall₂_replicate h n)

theorem Chosen.forall₂ {α β : Type*} {r : α → Bool} {r' : β → Bool} {R : α → β → Prop}
    (hr : ∀ a b, R a b → r a = r' b) {all chosen : List α} (h : Chosen r all chosen)
    {all' : List β} (hall : List.Forall₂ R all all') :
    ∃ chosen', Chosen r' all' chosen' ∧ List.Forall₂ R chosen chosen' := by
  induction h generalizing all' with
  | nil =>
    cases hall
    exact ⟨[], .nil, .nil⟩
  | take _ ih =>
    cases hall with
    | cons hab hall =>
      obtain ⟨chosen', hc, hf⟩ := ih hall
      exact ⟨_ :: chosen', .take hc, .cons hab hf⟩
  | skip ha _ ih =>
    cases hall with
    | cons hab hall =>
      obtain ⟨chosen', hc, hf⟩ := ih hall
      exact ⟨chosen', .skip (hr _ _ hab ▸ ha) hc, hf⟩

/-- Larger languages for the members of an object, the same ones required. -/
def MembersLe (declared declared' : List (Language Char × Bool)) : Prop :=
  List.Forall₂ (fun m m' => m.1 ≤ m'.1 ∧ m.2 = m'.2) declared declared'

theorem objectForm_mono {declared declared' : List (Language Char × Bool)}
    {additional additional' : Option (Language Char)} (hi : inner ≤ inner') (ho : outer ≤ outer')
    (hd : MembersLe declared declared') (ha : Option.Rel (· ≤ ·) additional additional') :
    objectForm inner outer declared additional ≤
      objectForm inner' outer' declared' additional' := by
  have hnone : additional.isNone = additional'.isNone := by cases ha <;> rfl
  have hget : additional.getD 0 ≤ additional'.getD 0 := by
    cases ha with
    | none => exact le_rfl
    | some h => exact h
  unfold objectForm
  rw [List.Forall₂.length_eq hd, hnone]
  refine bracketForm_mono hi ho ?_
  rintro w ⟨chosen, n, hc, hn, hw⟩
  obtain ⟨chosen', hc', hf⟩ := hc.forall₂ (fun a b hab => hab.2) hd
  refine ⟨chosen', n, hc', fun h => hn ?_, joined_le_joined (mul_le_mul' le_rfl hi) ?_ hw⟩
  · rw [← Option.isNone_iff_eq_none, hnone, h, Option.isNone_none]
  · refine List.rel_append ?_ (forall₂_replicate hget n)
    rw [List.forall₂_map_left_iff, List.forall₂_map_right_iff]
    exact hf.imp fun _ _ h => h.1

theorem entryForm_mono {key key' value value' : Language Char} (hk : key ≤ key')
    (hv : value ≤ value') : entryForm key value ≤ entryForm key' value' := by
  unfold entryForm
  gcongr

end

section

variable {layout : Layout} {nested nested' : Language Char}

theorem freeList_mono (h : nested ≤ nested') : freeList layout nested ≤ freeList layout nested' :=
  listForm_mono le_rfl le_rfl .nil h

theorem freeObject_mono (h : nested ≤ nested') :
    freeObject layout nested ≤ freeObject layout nested' :=
  objectForm_mono le_rfl le_rfl .nil (.some (entryForm_mono le_rfl h))

theorem jsonForm_mono (h : nested ≤ nested') : jsonForm layout nested ≤ jsonForm layout nested' :=
  add_le_add (add_le_add le_rfl (freeList_mono h)) (freeObject_mono h)

end

/-! ## The equations -/

/-- What has a language: the shapes of a table, and any value on a single line. -/
inductive Node where
  | shape (id : ShapeId)
  | line
deriving DecidableEq

namespace Shapes

/-- The layout of values on a single line. -/
def lineLayout : Layout := ⟨false, 0, 0⟩

/-- The words of a shape, given those of all shapes. -/
def shapeStep (env : Node → Language Char) : Shape → Language Char
  | .terminal t => t.language
  | .enumeration members | .union members => {w | ∃ id ∈ members, w ∈ env (.shape id)}
  | .reference _ none => 0
  | .reference _ (some target) => env (.shape target)
  | .array shape =>
    listForm shape.layout.descend.blanks shape.layout.blanks (shape.leading.map (env <| .shape ·))
      (env (.shape shape.items)) shape.least shape.most
  | .object shape =>
    objectForm shape.layout.descend.blanks shape.layout.blanks
      (shape.properties.map fun p =>
        (entryForm (Lexeme.word (Json.stringText p.key)) (env (.shape p.value)), p.required))
      (shape.additional.map fun id =>
        entryForm (Terminal.string {}).language (env (.shape id)))
  | .anyJson layout => jsonForm layout (env .line)

/-- The words of a node, given those of all nodes. -/
def step (shapes : Shapes) (env : Node → Language Char) : Node → Language Char
  | .line => jsonForm lineLayout (env .line)
  | .shape id => (shapes.get? id).elim 0 (shapeStep env)

theorem forall₂_map_le {α : Type*} {f g : α → Language Char} (h : ∀ a, f a ≤ g a) (l : List α) :
    List.Forall₂ (· ≤ ·) (l.map f) (l.map g) := by
  rw [List.forall₂_map_left_iff, List.forall₂_map_right_iff]
  exact List.forall₂_same.mpr fun a _ => h a

theorem shapeStep_mono {env env' : Node → Language Char} (h : env ≤ env') (shape : Shape) :
    shapeStep env shape ≤ shapeStep env' shape := by
  cases shape with
  | terminal t => exact le_rfl
  | enumeration members => exact fun w ⟨id, hid, hw⟩ => ⟨id, hid, h _ hw⟩
  | union members => exact fun w ⟨id, hid, hw⟩ => ⟨id, hid, h _ hw⟩
  | reference name target =>
    cases target with
    | none => exact le_rfl
    | some target => exact h _
  | array shape =>
    exact listForm_mono le_rfl le_rfl (forall₂_map_le (fun _ => h _) shape.leading) (h _)
  | object shape =>
    refine objectForm_mono le_rfl le_rfl ?_ ?_
    · refine (List.forall₂_map_left_iff.mpr (List.forall₂_map_right_iff.mpr ?_))
      exact List.forall₂_same.mpr fun p _ => ⟨entryForm_mono le_rfl (h _), rfl⟩
    · cases shape.additional with
      | none => exact .none
      | some id => exact .some (entryForm_mono le_rfl (h _))
  | anyJson layout => exact jsonForm_mono (h _)

theorem step_of_get? {shapes : Shapes} {id : ShapeId} {shape : Shape}
    (h : shapes.get? id = some shape) (env : Node → Language Char) :
    shapes.step env (.shape id) = shapeStep env shape := by
  simp [step, h]

theorem step_of_none {shapes : Shapes} {id : ShapeId} (h : shapes.get? id = none)
    (env : Node → Language Char) : shapes.step env (.shape id) = 0 := by
  simp [step, h]

/-- The equations as a monotone operator. -/
def operator (shapes : Shapes) : (Node → Language Char) →o (Node → Language Char) where
  toFun := shapes.step
  monotone' env env' h node := by
    cases node with
    | line => exact jsonForm_mono (h .line)
    | shape id =>
      cases hs : shapes.get? id with
      | none => rw [step_of_none hs, step_of_none hs]
      | some shape =>
        rw [step_of_get? hs, step_of_get? hs]
        exact shapeStep_mono h shape

/-- The language of each node: the least solution of the equations. -/
def language (shapes : Shapes) : Node → Language Char := OrderHom.lfp shapes.operator

theorem language_eq (shapes : Shapes) (node : Node) :
    shapes.language node = shapes.step shapes.language node :=
  (congrFun (OrderHom.map_lfp shapes.operator) node).symm

/-- What is closed under the equations contains their least solution. -/
theorem language_le {shapes : Shapes} {env : Node → Language Char}
    (h : ∀ node, shapes.step env node ≤ env node) : shapes.language ≤ env :=
  OrderHom.lfp_le shapes.operator h

end Shapes

end SchemaGrammar
