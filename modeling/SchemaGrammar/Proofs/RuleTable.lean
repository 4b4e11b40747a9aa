import SchemaGrammar.Proofs.Lookup
import SchemaGrammar.Proofs.RuleNames

/-!
# The table of rules and its steps

Rules are shared by text, names are given in several ways, and some names are in use before their
rule is there. A step only adds rules, and says which (`Rules.Grows`); steps are taken one after
another (`Step`).

## Main definitions

* `Rules.Named`: what holds of the names in a table.
* `Rules.StopsAt`: where the search for a name stops.
* `Rules.Grows`, `Step`: what a step may add, and a computation on a table that keeps to it.

## Main results

* `Rules.exists_stopsAt`: the search for a name stops.
* `Rules.Named.numberedName_notMem`, `exists_takeName_eq`: a number and a name for a definition are
  new.
* `intern_unnamed`: the rule for a body that is no name.
-/

namespace SchemaGrammar

open Grammar

/-! ## References -/

/-- The name of a rule, or a text that is not empty. -/
def Grammar.Body.IsReference (b : Body) : Prop :=
  (∃ name, IsName name ∧ b = .rule name) ∨ ∃ text, text ≠ "" ∧ b = .literal text

theorem isReference_rule {name : String} (h : IsName name) : (Body.rule name).IsReference :=
  .inl ⟨name, h, rfl⟩

theorem Grammar.Body.IsReference.isPart {b : Body} (h : b.IsReference) : b.IsPart := by
  rcases h with ⟨name, hname, rfl⟩ | ⟨text, htext, rfl⟩
  · exact Body.isPart_rule hname
  · exact Body.isPart_literal htext

/-- A reference that is a rule. -/
def IsRule (ref : Body) : Prop := ∃ name, IsName name ∧ ref = .rule name

theorem IsRule.isPart {ref : Body} (h : IsRule ref) : ref.IsPart := by
  obtain ⟨name, hname, rfl⟩ := h
  exact Body.isPart_rule hname

/-! ## Tables -/

/-- The name of any JSON value on a single line. -/
def lineName : String := "any-json-no-new-lines-rule"

/-- How a name can have come about. -/
def Rules.IsKind (r : Rules) (name : String) : Prop :=
  (∃ k < r.nextNumber, name = Rules.numberedName k) ∨ leadWord name ∈ terminalLeads ∨
    leadWord name = "any".toList ∨ name ∈ r.taken

/-- What holds of the names in a table: no two rules have the same, and each has come about in one
of the known ways. -/
structure Rules.Named (r : Rules) : Prop where
  nodup : (Assoc.keys r.entries).Nodup
  kind : ∀ {name body}, r.entries.get? name = some body → r.IsKind name
  taken : ∀ name ∈ r.taken, IsDefinitionName name

/-- `r.Grows new r'`: the rules of `r` stay, and every further one is as `new` says. -/
structure Rules.Grows (new : String → Body → Prop) (r r' : Rules) : Prop where
  keeps : Extends r.entries r'.entries
  added : ∀ {name body}, r'.entries.get? name = some body →
    r.entries.get? name = some body ∨ new name body
  taken : r'.taken = r.taken

section

variable {r r' r'' : Rules} {new new' : String → Body → Prop}

theorem Rules.Grows.refl (r : Rules) : r.Grows new r :=
  ⟨Extends.refl _, .inl, rfl⟩

theorem Rules.Grows.trans (h : r.Grows new r') (h' : r'.Grows new r'') : r.Grows new r'' where
  keeps := h.keeps.trans h'.keeps
  added hget := (h'.added hget).elim (fun hget => h.added hget) .inr
  taken := h'.taken.trans h.taken

theorem Rules.Grows.weaken (h : r.Grows new r') (hn : ∀ name body, new name body → new' name body) :
    r.Grows new' r' where
  keeps := h.keeps
  added hget := (h.added hget).imp_right (hn _ _)
  taken := h.taken

theorem Rules.Grows.notMem_keys {new : String → Body → Prop} {r' : Rules} {name : String}
    (hg : r.Grows new r') (hc : name ∉ Assoc.keys r.entries) (hn : ∀ b, ¬ new name b) :
    name ∉ Assoc.keys r'.entries := by
  intro hmem
  obtain ⟨found, hget⟩ := Assoc.mem_keys_iff.mp hmem
  rcases hg.added hget with hold | hadded
  · exact hc (Assoc.mem_keys_iff.mpr ⟨found, hold⟩)
  · exact hn found hadded

/-! ## Adding a rule -/

theorem Rules.get?_bind {name : String} {body : Body} {other : String} :
    (r.bind name body).entries.get? other =
      if other = name then some body else r.entries.get? other :=
  Assoc.get?_insert

theorem Rules.get?_bind_self {name : String} {body : Body} :
    (r.bind name body).entries.get? name = some body := by
  rw [Rules.get?_bind, if_pos rfl]

theorem Rules.extends_bind {name : String} (body : Body) (h : name ∉ Assoc.keys r.entries) :
    Extends r.entries (r.bind name body).entries := by
  intro other found hget
  have hne : other ≠ name := fun heq => h (heq ▸ Assoc.mem_keys_iff.mpr ⟨found, hget⟩)
  rw [Rules.get?_bind, if_neg hne, hget]

theorem Rules.grows_bind {name : String} (body : Body) (h : name ∉ Assoc.keys r.entries) :
    r.Grows (fun n b => n = name ∧ b = body) (r.bind name body) where
  keeps := Rules.extends_bind body h
  added hget := by
    rw [Rules.get?_bind] at hget
    split_ifs at hget with heq
    · exact .inr ⟨heq, (Option.some.inj hget).symm⟩
    · exact .inl hget
  taken := rfl

@[simp] theorem Grammar.Body.text_rule (name : String) : (Body.rule name).text = name := by
  rw [← String.toList_inj, Body.toList_text]
  simp [Body.rule, Body.item, choicesPieces, sequencePieces, Item.pieces, spelled, Count.mark]

/-- A number that has not been given. -/
theorem Rules.Named.numberedName_notMem (h : r.Named) :
    Rules.numberedName r.nextNumber ∉ Assoc.keys r.entries := by
  intro hmem
  obtain ⟨body, hget⟩ := Assoc.mem_keys_iff.mp hmem
  have hlead := leadWord_numberedName r.nextNumber
  rcases h.kind hget with ⟨k, hk, heq⟩ | hk | hk | hk
  · exact absurd (numberedName_inj heq) (Nat.ne_of_gt hk)
  · rw [hlead] at hk
    simp [terminalLeads] at hk
  · rw [hlead] at hk
    simp at hk
  · have := (h.taken _ hk).2
    rw [hlead] at this
    simp at this

/-! ## Names of definitions -/

/-- The search for a name tries one candidate after the other, for as long as it takes. It stops at
the `n`-th: this one is not used, and all before it are. -/
structure Rules.StopsAt (r : Rules) (base : String) (n : Nat) : Prop where
  pos : 1 ≤ n
  unused : r.isUsed (Rules.candidate base n) = false
  before : ∀ k, 1 ≤ k → k < n → r.isUsed (Rules.candidate base k) = true

/-- Candidates are different, so no more of them are used than there are names in use. -/
theorem le_of_candidates_used (base : String) {n : Nat}
    (hused : ∀ k, 1 ≤ k → k ≤ n → r.isUsed (Rules.candidate base k) = true) :
    n ≤ r.taken.length + r.entries.length := by
  have hsub : (List.range n).map (fun k => Rules.candidate base (k + 1)) ⊆
      r.taken ++ Assoc.keys r.entries := by
    intro name hname
    obtain ⟨k, hk, rfl⟩ := List.mem_map.mp hname
    have hkth := hused (k + 1) (Nat.le_add_left 1 k) (List.mem_range.mp hk)
    rcases Bool.or_eq_true_iff.mp hkth with ht | he
    · exact List.mem_append_left _ (by simpa using ht)
    · exact List.mem_append_right _ (Assoc.contains_iff.mp he)
  have hnodup : ((List.range n).map fun k => Rules.candidate base (k + 1)).Nodup := by
    refine List.nodup_range.map_on fun a _ b _ hab => ?_
    exact Nat.succ_injective (candidate_inj (Nat.le_add_left 1 a) (Nat.le_add_left 1 b) hab)
  have hle := (hnodup.subperm hsub).length_le
  simpa [Assoc.keys] using hle

/-- With more tries than names in use, the search is not cut off. -/
theorem exists_stopsAt_firstUnused (r : Rules) (base : String) {tries n : Nat} (hn : 1 ≤ n)
    (hused : ∀ k, 1 ≤ k → k < n → r.isUsed (Rules.candidate base k) = true)
    (htries : r.taken.length + r.entries.length < tries + n) :
    ∃ k ≤ tries + n, r.StopsAt base k ∧ r.firstUnused base tries n = Rules.candidate base k := by
  induction tries generalizing n with
  | zero =>
    refine ⟨n, Nat.le_add_left n 0, ⟨hn, ?_, hused⟩, rfl⟩
    by_contra hc
    rw [Bool.not_eq_false] at hc
    -- the last candidate that may be tried is used, and so were all before it
    have hle : n ≤ r.taken.length + r.entries.length := by
      refine le_of_candidates_used base fun k hk hkn => ?_
      rcases Nat.lt_or_eq_of_le hkn with hlt | rfl
      · exact hused k hk hlt
      · exact hc
    omega
  | succ tries ih =>
    rw [Rules.firstUnused]
    split_ifs with hc
    · have hused' : ∀ k, 1 ≤ k → k < n + 1 → r.isUsed (Rules.candidate base k) = true := by
        intro k hk hlt
        rcases Nat.lt_or_eq_of_le (Nat.lt_succ_iff.mp hlt) with hlt' | rfl
        · exact hused k hk hlt'
        · exact hc
      obtain ⟨k, hk, hstops, heq⟩ := ih (Nat.le_add_left 1 n) hused' (by omega)
      exact ⟨k, by omega, hstops, heq⟩
    · exact ⟨n, Nat.le_add_left n _, ⟨hn, by simpa using hc, hused⟩, rfl⟩

/-- **The search for a name stops**, and after no more tries than one for each name in use and one
for the name that it finds. -/
theorem Rules.exists_stopsAt (r : Rules) (definition : String) :
    ∃ n ≤ r.taken.length + r.entries.length + 1,
      r.StopsAt (Rules.definitionName definition) n ∧
      Rules.takeName definition r = (Rules.candidate (Rules.definitionName definition) n,
        { r with taken := Rules.candidate (Rules.definitionName definition) n :: r.taken }) := by
  obtain ⟨n, hn, hstops, heq⟩ := exists_stopsAt_firstUnused r (Rules.definitionName definition)
    (le_refl 1) (fun k hk hlt => absurd hlt (Nat.not_lt_of_le hk)) (Nat.lt_succ_self _)
  refine ⟨n, hn, hstops, ?_⟩
  rw [← heq]
  rfl

/-- **A name for a definition is new.** -/
theorem exists_takeName_eq (r : Rules) (definition : String) :
    ∃ name, Rules.takeName definition r = (name, { r with taken := name :: r.taken }) ∧
      IsDefinitionName name ∧ name ∉ r.taken ∧ name ∉ Assoc.keys r.entries := by
  obtain ⟨n, -, hstops, heq⟩ := r.exists_stopsAt definition
  have hunused := hstops.unused
  rw [Rules.isUsed, Bool.or_eq_false_iff] at hunused
  refine ⟨_, heq, isDefinitionName_candidate definition n, by simpa using hunused.1, ?_⟩
  intro hmem
  rw [← Assoc.contains_iff] at hmem
  rw [Rules.contains, hmem] at hunused
  exact Bool.noConfusion hunused.2

theorem Rules.IsKind.takeName {name : String} (h : r.IsKind name) (given : String) :
    Rules.IsKind { r with taken := given :: r.taken } name :=
  h.imp_right fun h => h.imp_right fun h => h.imp_right (List.mem_cons_of_mem _)

end

/-! ## Steps -/

theorem stateM_bind {σ α β : Type} {m : StateM σ α} {f : α → StateM σ β} {s s' : σ} {a : α}
    (h : m s = (a, s')) : (m >>= f) s = f a s' := by
  show (match m s with | (a, s) => f a s) = f a s'
  rw [h]

section

variable {r : Rules} {α β : Type} {inv : Rules → Prop} {new new' : String → Body → Prop}

/-- `Step inv new r m post`: on the table `r`, the computation `m` leads to a table of which `inv`
holds and adds only rules as `new` says; its result is as `post` says. -/
def Step (inv : Rules → Prop) (new : String → Body → Prop) (r : Rules) (m : StateM Rules α)
    (post : α → Rules → Prop) : Prop :=
  ∃ a r', m r = (a, r') ∧ inv r' ∧ r.Grows new r' ∧ post a r'

theorem Step.pure (h : inv r) {a : α} {post : α → Rules → Prop} (hp : post a r) :
    Step inv new r (Pure.pure a) post :=
  ⟨a, r, rfl, h, .refl r, hp⟩

/-- One step after another. -/
theorem Step.bind {m : StateM Rules α} {f : α → StateM Rules β} {mid : α → Rules → Prop}
    {post : β → Rules → Prop} (hm : Step inv new r m mid)
    (hf : ∀ a r', inv r' → r.Grows new r' → mid a r' → Step inv new r' (f a) post) :
    Step inv new r (m >>= f) post := by
  obtain ⟨a, r', heq, hs, hg, hmid⟩ := hm
  obtain ⟨b, r'', heq', hs', hg', hpost⟩ := hf a r' hs hg hmid
  exact ⟨b, r'', (stateM_bind heq).trans heq', hs', hg.trans hg', hpost⟩

/-- Two steps whose combined effect is known, and a third one. -/
theorem Step.bind₂ {γ : Type} {m : StateM Rules γ} {f : γ → StateM Rules α}
    {g : α → StateM Rules β} {mid : α → Rules → Prop} {post : β → Rules → Prop}
    (hm : Step inv new r (m >>= f) mid)
    (hf : ∀ a r', inv r' → r.Grows new r' → mid a r' → Step inv new r' (g a) post) :
    Step inv new r (m >>= fun c => f c >>= g) post := by
  rw [← bind_assoc]
  exact hm.bind hf

theorem Step.weaken {m : StateM Rules α} {post : α → Rules → Prop}
    (hm : Step inv new r m post) (hn : ∀ name body, new name body → new' name body) :
    Step inv new' r m post := by
  obtain ⟨a, r', heq, hs, hg, hpost⟩ := hm
  exact ⟨a, r', heq, hs, hg.weaken hn, hpost⟩

end

/-! ## Interning and reserved names -/

section

variable {r : Rules}

/-- A body that is no name gets the rule with its text, or a new one. -/
theorem intern_unnamed {body : Body} (hvis : body.isBlank = false) (htext : ¬ IsName body.text)
    (hnames : ∀ name found, r.entries.get? name = some found → IsName name)
    (htaken : ∀ name ∈ r.taken, IsName name) (name : String) :
    Rules.intern body (some name) r =
      (r.byText.get? body.text).elim (.rule name, r.bind name body) fun n => (.rule n, r) := by
  have hblank : (body.text == Body.noValue.text) = false := by
    simp only [Body.isBlank, Bool.or_eq_false_iff] at hvis
    exact hvis.2
  have hname : (r.contains body.text || r.taken.contains body.text) = false := by
    rw [Bool.or_eq_false_iff]
    constructor
    · refine Bool.eq_false_iff.mpr fun hc => htext ?_
      obtain ⟨found, hget⟩ := Assoc.mem_keys_iff.mp (Assoc.contains_iff.mp hc)
      exact hnames _ _ hget
    · exact Bool.eq_false_iff.mpr fun ht => htext (htaken _ (by simpa using ht))
  unfold Rules.intern
  simp only [hblank, hname, Bool.false_eq_true, if_false]
  cases r.byText.get? body.text <;> rfl

theorem reserved_of_mem {name : String} (hc : name ∈ Assoc.keys r.entries)
    (body : StateM Rules Body) : Rules.reserved name body r = (.rule name, r) := by
  have hc : r.contains name = true := Assoc.contains_iff.mpr hc
  show (if r.contains name then Pure.pure (.rule name) else _ : StateM Rules Body) r = _
  rw [if_pos hc]
  rfl

theorem reserved_of_notMem {name : String} (hc : name ∉ Assoc.keys r.entries)
    {body : StateM Rules Body} {b : Body} {r' : Rules} (hb : body r = (b, r')) :
    Rules.reserved name body r = Rules.intern b (some name) r' := by
  have hc : ¬ r.contains name = true := fun hc' => hc (Assoc.contains_iff.mp hc')
  show (if r.contains name then Pure.pure (.rule name)
    else body >>= fun b => Rules.intern b (some name) : StateM Rules Body) r = _
  rw [if_neg hc]
  exact stateM_bind hb

end

/-- A string with bounds does not have the name of its characters. -/
theorem LengthBounds.ruleName_ne (bounds : LengthBounds) :
    bounds.ruleName ≠ "string-char-rule" := by
  intro h
  have hname : (Terminal.string bounds).ruleName? = some "string-char-rule" := congrArg some h
  have hwords := Terminal.nameWords_of_ruleName? hname
  have hlength := congrArg List.length hwords
  obtain ⟨least, most⟩ := bounds
  have hthree : (nameWords "string-char-rule").length = 3 := by decide
  rw [hthree] at hlength
  cases most <;> cases least <;> simp [Terminal.reservedWords] at hlength

/-- A text in brackets is not the name of a rule. -/
theorem not_isName_text_group (b : Body) (count : Count) : ¬ IsName (b.group count).text := by
  rintro ⟨-, h⟩
  have hmem : '(' ∈ (b.group count).text.toList := by
    rw [Body.toList_text]
    simp [Body.group, Body.item, choicesPieces, sequencePieces, Item.pieces, spelled]
  exact absurd (h _ hmem) (by decide)

theorem flatJson_eq (layout : Layout) : Rules.flatJson layout =
    Rules.reserved lineName (Rules.anyJsonBody layout.flat (.rule lineName)) := rfl

theorem lineName_ne_anyJsonRule {layout : Layout} (h : layout.newLines = true) :
    layout.anyJsonRule ≠ lineName := by
  intro heq
  have hline : layout.anyJsonRule = Shapes.lineLayout.anyJsonRule := heq
  have hl := (Layout.jsonForm_eq_of_anyJsonRule_eq hline).2
  rw [h] at hl
  exact Bool.noConfusion hl

end SchemaGrammar
