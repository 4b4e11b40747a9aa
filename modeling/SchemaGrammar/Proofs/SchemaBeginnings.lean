import SchemaGrammar.Proofs.ReadingObjects
import SchemaGrammar.Proofs.SchemaText

/-!
# What of a text makes a schema

A schema is read from the beginning of a text, up to the bracket that closes it, and whatever stands
behind this bracket is not looked at: it can be exchanged for any other text. What was read is a
JSON text by itself. Where this text, with blanks after it or not, is also read as a document, the
value of the document describes the same schema; with anything else after it, it is no document.

## Main results

* `Json.Reader.local_form`: reading in a form looks no further than one character ahead.
* `Schema.exists_document_of_ofText`: what a text that is read as a schema looks like.
-/

namespace SchemaGrammar

namespace Json

namespace Reader

/-! ## Forms -/

section

variable {ext ext' : List Char} {n : Nat}

theorem local_textForm : Local ext ext' n textForm textForm := by
  refine local_peekToken.bind fun token => ?_
  split
  · exact exchanges_string.local
  · exact (fails_mismatch _).local _

theorem local_countForm : Local ext ext' n countForm countForm := by
  refine local_peekToken.bind fun token => ?_
  split
  · split
    · refine exchanges_number.local.bind fun number => ?_
      split
      · exact local_pure _
      · exact (fails_reject _).local _
    · exact (fails_mismatch _).local _
  · exact (fails_mismatch _).local _

variable {read : (form : Form) → (closing : Cursor → Nat) → Reader form.Carrier}

theorem local_keyword (hread : ∀ form closing n, Local ext ext' n (read form closing)
    (read form closing)) (closing : Cursor → Nat) (s : Schema) (k : Keyword) :
    Local ext ext' n (keyword read closing s k) (keyword read closing s k) := by
  refine local_peekToken.bind fun token => ?_
  split
  · exact local_eat.bind fun _ => (exchanges_letters _).local.bind fun _ => local_pure _
  · exact (hread _ _ _).bind fun x => local_pure _

theorem strict_keyword
    (hread : ∀ form closing c x after, read form closing c = .ok (x, after) → Skips c after)
    (closing : Cursor → Nat) (s : Schema) (k : Keyword) : Strict (keyword read closing s k) :=
  fun _ _ _ h => (skips_keyword hread h).length_lt

theorem local_schemaMembers
    (hread : ∀ form closing n, Local ext ext' n (read form closing) (read form closing))
    (hskips : ∀ form closing c x after, read form closing c = .ok (x, after) → Skips c after)
    (steps : Steps) {steps' : Steps} (hn : n ≤ steps'.length) (first : Bool) (seen : List Keyword)
    (s : Schema) :
    Local ext ext' n (schemaMembers read steps first seen s)
      (schemaMembers read steps' first seen s) := by
  induction steps generalizing steps' n first seen s with
  | nil => exact (fails_failHere _).local _
  | cons _ steps ih =>
    refine local_steps (schemaMembers read · first seen s) (fun _ steps' n hn => ?_) hn
    refine (local_nextKey _).bind fun name => ?_
    split
    · exact local_pure _
    · split
      · refine local_colon.bind fun _ => ?_
        refine (local_skipValue.within _).bind_of_strict (strict_skipValue.within _) fun _ => ?_
        exact ih (Nat.sub_le_of_le_add hn) _ _ _
      · split
        · exact (fails_rejectInside _ _).local _
        · refine local_colon.bind fun _ => ?_
          refine ((local_keyword hread _ _ _).within _).bind_of_strict
            ((strict_keyword hskips _ _ _).within _) fun t => ?_
          exact ih (Nat.sub_le_of_le_add hn) _ _ _

theorem local_schemaPositions
    (hread : ∀ form closing n, Local ext ext' n (read form closing) (read form closing))
    (keywords : List Keyword) (index : Nat) (s : Schema) :
    Local ext ext' n (schemaPositions read keywords index s)
      (schemaPositions read keywords index s) := by
  induction keywords generalizing index s with
  | nil => exact local_pure s
  | cons k keywords ih =>
    refine (local_hasNextItem _).bind fun more => ?_
    split
    · exact ((local_keyword hread _ _ _).within _).bind fun t => ih _ _
    · exact local_pure s

/-- The members of a schema in braces, without the brace that closes it. -/
theorem local_openMembers
    (hread : ∀ form closing n, Local ext ext' n (read form closing) (read form closing))
    (hskips : ∀ form closing c x after, read form closing c = .ok (x, after) → Skips c after) :
    Local ext ext' n (eat >>= fun _ => stepsLeft >>= fun steps => schemaMembers read steps true [] {})
      (eat >>= fun _ => stepsLeft >>= fun steps => schemaMembers read steps true [] {}) :=
  local_eat.bind fun _ => local_stepsLeft_bind fun steps _ _ hn =>
    local_schemaMembers hread hskips steps hn true [] {}

theorem schemaBody_object_eq (read : (form : Form) → (closing : Cursor → Nat) →
      Reader form.Carrier) :
    schemaBody read '\x7b' =
      ((eat >>= fun _ => stepsLeft >>= fun steps => schemaMembers read steps true [] {}) >>=
        fun s => closeObject >>= fun _ => Pure.pure s) := by
  simp [schemaBody]

theorem schemaBody_list_eq (read : (form : Form) → (closing : Cursor → Nat) →
      Reader form.Carrier) :
    schemaBody read '[' =
      ((eat >>= fun _ => schemaPositions read Keyword.all 0 {}) >>=
        fun s => closeList >>= fun _ => Pure.pure s) := by
  simp [schemaBody]

theorem strict_form (depth : Nat) (wanted : Form) (closing : Cursor → Nat) :
    Strict (form depth wanted closing) :=
  fun _ _ _ h => (skips_form h).length_lt

/-- **Reading in a form looks no further than one character ahead.** -/
theorem local_form (depth : Nat) (wanted : Form) (closing : Cursor → Nat) :
    Local ext ext' n (form depth wanted closing) (form depth wanted closing) := by
  induction depth using Nat.strongRecOn generalizing n wanted closing with
  | ind depth ih =>
    cases wanted with
    | text =>
      rw [form_text]
      exact local_textForm
    | count =>
      rw [form_count]
      exact local_countForm
    | value =>
      unfold form
      exact (local_value depth).bind fun v => local_pure _
    | types | additional =>
      unfold form
      refine (local_value depth).bind fun v => ?_
      split
      · exact local_pure _
      · exact (fails_rejectInside _ _).local _
    | schema =>
      unfold form
      refine local_peekToken.bind fun token => ?_
      split
      · cases depth with
        | zero => exact (fails_failAhead _).local _
        | succ inner =>
          dsimp only
          rw [schemaBody_object_eq]
          refine (local_openMembers (fun form closing n => ?_) fun _ _ _ _ _ => skips_form).bind
            fun s => local_closeObject.bind fun _ => local_pure s
          exact ih inner inner.lt_succ_self form closing
      · cases depth with
        | zero => exact (fails_failAhead _).local _
        | succ inner =>
          dsimp only
          rw [schemaBody_list_eq]
          refine (local_eat.bind fun _ => local_schemaPositions (fun form closing n => ?_) _ _ _).bind
            fun s => local_closeList.bind fun _ => local_pure s
          exact ih inner inner.lt_succ_self form closing
      · exact (fails_mismatch _).local _
    | listOf item =>
      unfold form
      refine local_peekToken.bind fun token => ?_
      split
      · cases depth with
        | zero => exact (fails_failAhead _).local _
        | succ inner =>
          refine local_list (fun n => ?_) (strict_form inner item _)
          exact ih inner inner.lt_succ_self item _
      · exact (fails_mismatch _).local _
    | mapOf entry =>
      unfold form
      refine local_peekToken.bind fun token => ?_
      split
      · cases depth with
        | zero => exact (fails_failAhead _).local _
        | succ inner =>
          refine (local_object (fun n => ?_) (strict_form inner entry _)).bind fun _ => local_pure _
          exact ih inner inner.lt_succ_self entry _
      · exact (fails_mismatch _).local _

end

/-! ## Up to the closing bracket -/

section

variable {w : List Char} {after : Cursor}

theorem form_schema_skipBlanks (depth : Nat) (closing : Cursor → Nat) (c : Cursor) :
    form depth .schema closing c.skipBlanks = form depth .schema closing c := by
  unfold form
  exact peekToken_bind_skipBlanks _ c

/-- **What follows a schema is not looked at.** -/
theorem form_schema_swap {depth : Nat} {closing : Cursor → Nat} {offset : Nat} {s : Schema}
    (h : form depth .schema closing ⟨w ++ after.rest, offset⟩ = .ok (s, after))
    (more : List Char) (offset' : Nat) :
    ∃ next, form depth .schema closing ⟨w ++ more, offset'⟩ = .ok (s, ⟨more, next⟩) := by
  have hlt : ∀ {b : Cursor} {char : Char},
      peekToken ⟨w ++ after.rest, offset⟩ = .ok (some char, b) →
        after.rest.length < b.rest.length := by
    intro b char hpeek
    obtain ⟨rfl, -⟩ := rest_of_peekToken hpeek
    rw [← form_schema_skipBlanks] at h
    exact (skips_form h).length_lt
  obtain ⟨inner, ⟨rest, between⟩, rfl, ⟨hpeek, hbody⟩ | ⟨hpeek, hbody⟩⟩ := schemaForm_eq_ok h
  · obtain ⟨v, next, rfl, hpeek'⟩ :=
      local_peekToken.swap w.length.lt_succ_self hpeek (hlt hpeek) offset'
    rw [schemaBody_object_eq] at hbody
    obtain ⟨u, hu, hswap⟩ := exists_closed (fun _ _ _ => local_openMembers
      (fun _ _ _ => local_form _ _ _) fun _ _ _ _ _ => skips_form) closeObject_eq_ok_iff hbody
    obtain rfl := List.append_cancel_right hu
    obtain ⟨next', hrun⟩ := hswap more next
    refine ⟨next', ?_⟩
    unfold form
    rw [bind_of_ok hpeek', ← hrun, ← schemaBody_object_eq]
    rfl
  · obtain ⟨v, next, rfl, hpeek'⟩ :=
      local_peekToken.swap w.length.lt_succ_self hpeek (hlt hpeek) offset'
    rw [schemaBody_list_eq] at hbody
    obtain ⟨u, hu, hswap⟩ := exists_closed (fun _ _ _ => local_eat.bind fun _ =>
      local_schemaPositions (fun _ _ _ => local_form _ _ _) _ _ _) closeList_eq_ok_iff hbody
    obtain rfl := List.append_cancel_right hu
    obtain ⟨next', hrun⟩ := hswap more next
    refine ⟨next', ?_⟩
    unfold form
    rw [bind_of_ok hpeek', ← hrun, ← schemaBody_list_eq]
    rfl

end

theorem beginning_eq_ok_iff {wanted : Form} {text : String} {x : wanted.Carrier} :
    beginning wanted text = .ok x ↔
      ∃ after, form depthLimit wanted Cursor.offset ⟨text.toList, 0⟩ = .ok (x, after) := by
  unfold beginning
  show _ ↔ ∃ after, (form depthLimit wanted Cursor.offset).run (Cursor.start text) = _
  split
  · next heq => simp [heq]
  · next heq => simp [heq]

end Reader

theorem value_of_parseDocument {text : String} {v : Value} (h : parseDocument text = .ok v) :
    ∃ raw after, Reader.value depthLimit ⟨text.toList, 0⟩ = .ok (raw, after) ∧
      IsBlank after.rest ∧ v = raw.collapsed := by
  obtain ⟨raw, hraw, rfl⟩ := parseNested_eq_ok_iff.mp h
  obtain ⟨after, hrun, hblank⟩ := Reader.readsAs_value_iff.mp hraw
  exact ⟨raw, after, hrun, hblank, rfl⟩

end Json

open Json Reader

/-- **A schema is what the beginning of a text says.** A text that is read as a schema begins with a
JSON text, and any other continuation of it is read as the same schema. Such a continuation is a
document only if it is blank, and then the document describes the same schema. -/
theorem Schema.exists_document_of_ofText {text : String} {s : Schema}
    (h : Schema.ofText text = .ok s) :
    ∃ document rest : String, text = document ++ rest ∧ IsText document.toList ∧
      ∀ more : String, Schema.ofText (document ++ more) = .ok s ∧
        ∀ v, parseDocument (document ++ more) = .ok v →
          IsBlank more.toList ∧ Schema.ofValue v = .ok s := by
  obtain ⟨after, hrun⟩ := beginning_eq_ok_iff.mp h
  obtain ⟨b, v, hb, hv, htext⟩ := (skips_form hrun).text
  have hdocument : IsText (b ++ v) := by simpa using IsText.intro hb hv isBlank_nil
  refine ⟨String.ofList (b ++ v), String.ofList after.rest, ?_, by simpa using hdocument, ?_⟩
  · rw [← String.ofList_append, ← htext, String.ofList_toList]
  intro more
  have hmore : (String.ofList (b ++ v) ++ more).toList = b ++ v ++ more.toList := by simp
  have htext' : text.toList = b ++ v ++ after.rest := htext
  rw [htext'] at hrun
  obtain ⟨next, hrun'⟩ := form_schema_swap hrun more.toList 0
  rw [← hmore] at hrun'
  refine ⟨beginning_eq_ok_iff.mpr ⟨_, hrun'⟩, fun v' hv' => ?_⟩
  obtain ⟨raw, after', hraw, hblank, rfl⟩ := value_of_parseDocument hv'
  obtain ⟨rfl, hform⟩ := agreesWith_form depthLimit _ _ _ _ _ _ _ hrun' hraw
  exact ⟨hblank, Value.inForm_collapsed raw .schema s hform⟩

/-- A text with a schema and more after it. -/
def pairText : String := " \x7b\"type\": \"array\", \"note\": [null], \"minItems\": 2\x7d, 5"

/-- What is read of it. -/
def pairSchema : Schema := { types := some (.one .array), minItems := some 2 }

theorem exists_document_of_pairText :
    Schema.ofText pairText = .ok pairSchema ∧
      ∃ document rest : String, pairText = document ++ rest ∧ IsText document.toList ∧
        ∀ more : String, Schema.ofText (document ++ more) = .ok pairSchema ∧
          ∀ v, parseDocument (document ++ more) = .ok v →
            IsBlank more.toList ∧ Schema.ofValue v = .ok pairSchema := by
  have hread : Schema.ofText pairText = .ok pairSchema := by cbv
  exact ⟨hread, Schema.exists_document_of_ofText hread⟩

/-- A letter after the schema makes the text no document, and it is still read as a schema. -/
theorem ofText_of_trailing_letter :
    Schema.ofText "\x7b\x7d x" = .ok {} ∧ ∀ v, parseDocument "\x7b\x7d x" ≠ .ok v := by
  have hfails : (parseDocument "\x7b\x7d x").isOk = false := by cbv
  refine ⟨by cbv, fun v hv => ?_⟩
  rw [hv] at hfails
  cases hfails

end SchemaGrammar
