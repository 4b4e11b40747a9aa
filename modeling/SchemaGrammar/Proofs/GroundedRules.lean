import SchemaGrammar.Proofs.RuleGraph

/-!
# Rules for leaves and free-form values

Rules for leaves, blanks and any JSON value are made as they are asked for, and refer to no
definition. They keep a table neat, await nothing, and stand for what they are made for.

## The rule that nests itself

Any JSON value on a single line refers to itself, so its name is given away before its body is
interned. The body could in principle be found under another name; the rule would then never be
bound. It is not found: a rule that was there before would mention, through the rule for lists, the
name that was not known then, and the rules added meanwhile begin with literals where the body, a
choice between rules, does not (`Rules.lineBody_unshared`).

## Main definitions

* `Rules.Grounded`: a reference that awaits nothing.
* `Rules.PlainRule`: the rules that leaves and containers add.
* `Rules.Answers`: the rule of a leaf.
* `Rules.Faithful`: the rules for any JSON value stand for it.

## Main results

* `Rules.neat_terminal`: leaves.
* `Rules.neat_array`, `Rules.neat_object`: the bodies of containers.
* `Rules.neat_anyJson`: any JSON value.
-/

namespace SchemaGrammar

open Grammar
open Relation (ReflTransGen)

namespace Rules

/-- A reference to known rules that awaits nothing. -/
structure Grounded (given : String → Prop) (r : Rules) (ref : Body) : Prop where
  known : ref.NamesIn (r.Knows given)
  awaits : ∀ d, ¬ r.Awaits ref d

/-- The rules that leaves and containers add. -/
def PlainRule (name : String) (body : Body) : Prop := IsPlainName name ∧ body.heads = []

section

variable {given : String → Prop} {r r' : Rules} {new new' : String → Body → Prop} {ref b : Body}

theorem Grounded.of_heads_nil (hk : b.NamesIn (r.Knows given)) (hh : b.heads = []) :
    Grounded given r b :=
  ⟨hk, fun _ => not_awaits_of_heads_nil hh⟩

theorem Grounded.mono (hr : Grounded given r ref) (h : r.Neat given) (hg : r.Grows new r')
    (hnew : ∀ n b, new n b → ¬ given n) : Grounded given r' ref where
  known := hr.known.mono fun _ hn => hn.mono hg.keeps fun _ => id
  awaits d ha := hr.awaits d (h.awaits_of_extends hg.keeps (fun n hn hk => by
    by_contra hc
    exact hg.notMem_keys hc (fun b hb => hnew n b hb hn) hk) hr.known ha)

theorem Neat.not_given_of_plainRule (h : r.Neat given) (n : String) (b : Body)
    (hp : PlainRule n b) : ¬ given n :=
  fun hg => h.given hg hp.1

theorem IsReservedName.isKind {name : String} (h : IsReservedName name) (r : Rules) :
    r.IsKind name :=
  h.elim (fun hl => .inr (.inl hl)) fun hl => .inr (.inr (.inl hl))

theorem befits_of_any {name : String} (h : leadWord name = "any".toList)
    (hground : ∀ d, ¬ r.Awaits b d) : r.Befits name b := by
  refine ⟨fun _ => hground, fun t ht => ?_⟩
  have hlead := Terminal.leadWord_mem ht
  rw [h] at hlead
  exact absurd hlead (by decide)

theorem Neat.grounded_rule (h : r.Neat given) {name : String} (hres : IsReservedName name)
    (hc : name ∈ Assoc.keys r.entries) : Grounded given r (.rule name) := by
  obtain ⟨body, hget⟩ := Assoc.mem_keys_iff.mp hc
  exact ⟨namesIn_rule (.inl hc), fun d ha =>
    (h.befits hget).grounded hres d (awaits_of_rule hget ha)⟩

/-! ## Bodies of leaves -/

theorem wellFormed_of_ruleName? {t : Terminal} (hs : t.isString = false)
    (h : t.ruleName?.isSome = true) : t.WellFormed := by
  cases t with
  | string bounds => cases hs
  | verbatim text => cases h
  | _ => trivial

theorem heads_body {t : Terminal} (h : t.isString = false) : (t.body .empty).heads = [] :=
  List.subset_nil.mp (t.names_body h ▸ (t.body .empty).heads_subset_names)

theorem HasBody.eq_body {t : Terminal} (hb : r.HasBody b t) (hs : t.isString = false) :
    b = t.body .empty := by
  cases t with
  | string bounds => cases hs
  | _ => exact hb

/-- The body of a leaf begins with no rule. -/
theorem HasBody.spec (h : r.Neat given) {t : Terminal} (hb : r.HasBody b t) :
    b.Readable ∧ b.NamesIn (r.Knows given) ∧ b.heads = [] ∧
      (t.ruleName?.isSome = true ∨ t.WellFormed → b.isBlank = false) := by
  cases hs : t.isString with
  | false =>
    obtain rfl := hb.eq_body hs
    refine ⟨t.readable_body hs, fun n hn => ?_, heads_body hs, fun hw => ?_⟩
    · rw [t.names_body hs] at hn
      exact absurd hn List.not_mem_nil
    · exact t.visible_body hs (hw.elim (wellFormed_of_ruleName? hs) id)
  | true =>
    cases t with
    | string bounds =>
      obtain ⟨name, found, hget, -, rfl⟩ := hb
      have hrule : (Body.rule name).IsPart := Body.isPart_rule (h.isName hget)
      have hpart : (stringBody bounds (.rule name)).IsPart := isPart_stringBody hrule
      exact ⟨hpart.segment.readable, namesIn_stringBody (namesIn_rule (.inl
        (Assoc.mem_keys_iff.mpr ⟨found, hget⟩))) bounds, heads_stringBody hrule bounds,
        fun _ => hpart.visible⟩
    | _ => cases hs

theorem HasBody.not_isName (h : r.Neat given) {t : Terminal} (hb : r.HasBody b t) :
    ¬ IsName b.text := by
  obtain ⟨hread, -, hheads, -⟩ := hb.spec h
  intro hname
  rw [(Body.names_of_isName hread hname).2] at hheads
  exact absurd hheads (List.cons_ne_nil _ _)

/-- Leaves with one reserved name have one body. -/
theorem HasBody.congr {t t' : Terminal} {name : String} (hb : r.HasBody b t)
    (h : t.ruleName? = some name) (h' : t'.ruleName? = some name) : r.HasBody b t' := by
  rcases Terminal.eq_or_of_ruleName?_eq h h' with rfl | ⟨l, l', rfl, rfl, hl, hl'⟩
  · exact hb
  · have hbody : b = Terminal.body .empty (.whitespace l) := hb
    simpa [HasBody, Terminal.body, Layout.body, hl, hl'] using hbody

/-- The body of a leaf is a draft of it. -/
theorem HasBody.drafts (h : r.Neat given) {t : Terminal} (hb : r.HasBody b t) (hw : t.WellFormed)
    (shapes : Shapes) (owners : Owners) : Drafts shapes owners r.entries (.terminal t) b := by
  cases hs : t.isString with
  | false =>
    rw [hb.eq_body hs]
    exact ⟨[], by simp, translates_terminal hs⟩
  | true =>
    cases t with
    | string bounds =>
      obtain ⟨name, found, hget, htext, rfl⟩ := hb
      have hread : stringCharBody.Readable := Terminal.stringChar.readable_body rfl
      have hsame := Body.language_congr (h.readable hget) hread htext
      have hchar : Drafts shapes owners r.entries (.terminal .stringChar) stringCharBody :=
        ⟨[], by simp, translates_terminal rfl⟩
      exact ⟨_, List.forall_mem_singleton.mpr (hchar.resolves (.of_get? hget (.same hsame))),
        translates_string hw (Body.isPart_rule (h.isName hget))⟩
    | _ => cases hs

/-- `ref` is the rule for the leaf `t`: its body has the text of the leaf's. -/
def Answers (r : Rules) (t : Terminal) (ref : Body) : Prop :=
  ∃ name found body, ref = .rule name ∧ r.entries.get? name = some found ∧ r.HasBody body t ∧
    found.text = body.text

theorem Answers.mono {t : Terminal} (h : r.Answers t ref) (he : Extends r.entries r'.entries) :
    r'.Answers t ref := by
  obtain ⟨name, found, body, rfl, hget, hb, htext⟩ := h
  exact ⟨name, found, body, rfl, he _ _ hget, hb.mono he, htext⟩

/-- The rule for a leaf stands for it. -/
theorem Answers.resolves (h : r.Neat given) {t : Terminal} (ha : r.Answers t ref)
    (hw : t.WellFormed) (shapes : Shapes) (owners : Owners) :
    Resolves shapes owners r.entries (.terminal t) ref := by
  obtain ⟨name, found, body, rfl, hget, hb, htext⟩ := ha
  have hsame := Body.language_congr (h.readable hget) (hb.spec h).1 htext
  exact (hb.drafts h hw shapes owners).resolves (.of_get? hget (.same hsame))

/-- A rule under a reserved name, which its body does not use. -/
theorem neat_reserved (h : r.Neat given) {name : String} (hname : IsName name)
    (hres : IsReservedName name) (hunused : ¬ given name) {body : StateM Rules Body}
    {P : Body → Rules → Prop}
    (hb : name ∉ Assoc.keys r.entries → Step (Neat given) new r body fun b r' =>
      (r'.Written given b ∧ r'.Befits name b ∧ new' name b) ∧ P b r')
    (hself : ∀ b, ¬ new name b) (hnew : ∀ n b, new n b → new' n b) :
    Step (Neat given) new' r (reserved name body) fun ref r' =>
      ((Grounded given r' ref ∧ IsRule ref) ∧
        ∀ t : Terminal, t.ruleName? = some name → r'.Answers t ref) ∧
      (name ∈ Assoc.keys r.entries ∧ ref = .rule name ∧ r' = r ∨
        ∃ b r₁, P b r₁ ∧ Entered given r₁ b (some name) ref r') := by
  by_cases hc : name ∈ Assoc.keys r.entries
  · obtain ⟨found, hget⟩ := Assoc.mem_keys_iff.mp hc
    exact ⟨.rule name, r, reserved_of_mem hc body, h, .refl r,
      ⟨⟨h.grounded_rule hres hc, name, hname, rfl⟩, fun t ht =>
        ⟨name, found, found, rfl, hget, (h.befits hget).isBody t ht, rfl⟩⟩, .inl ⟨hc, rfl, rfl⟩⟩
  · obtain ⟨b, r', heq, hn, hg, ⟨hw, hbefits, hb⟩, hP⟩ := hb hc
    have hpref : ∀ other ∈ some name, other ∉ Assoc.keys r'.entries ∧ IsName other ∧
        r'.IsKind other ∧ ¬ given other ∧ r'.Befits other b := by
      rintro _ ⟨⟩
      exact ⟨hg.notMem_keys hc hself, hname, hres.isKind r', hunused, hbefits⟩
    obtain ⟨ref, r'', heq', hi⟩ := intern_neat hn hw hpref
    refine ⟨ref, r'', (reserved_of_notMem hc heq).trans heq', hi.neat,
      (hg.weaken hnew).trans (hi.grows.weaken ?_),
      ⟨⟨⟨hi.known, fun d ha => hbefits.grounded hres d (hi.awaits d ha)⟩, hi.isRule⟩,
      fun t ht => ?_⟩, .inr ⟨b, r', hP, hi⟩⟩
    · rintro n _ ⟨rfl, hn | ⟨hn, -⟩⟩
      · exact Option.some.inj hn ▸ hb
      · cases hn
    · have hbody := hbefits.isBody t ht
      obtain ⟨n, found, rfl, hget, htext⟩ := hi.rule.resolve_left (hbody.not_isName hn)
      exact ⟨n, found, b, rfl, hget, hbody.mono hi.grows.keeps, htext⟩

/-! ## Leaves -/

theorem neat_stringChar (h : r.Neat given) :
    Step (Neat given) (fun n b => n = "string-char-rule" ∧ b.heads = []) r stringChar
      fun ref r' => r'.Answers .stringChar ref := by
  have hlead : leadWord "string-char-rule" ∈ terminalLeads := by decide
  have hbody : r.HasBody stringCharBody .stringChar := rfl
  obtain ⟨hread, hknown, hheads, hvisible⟩ := hbody.spec h
  have hstep : Step (Neat given) (fun _ _ => False) r (pure stringCharBody) fun b r' =>
      (r'.Written given b ∧ r'.Befits "string-char-rule" b ∧
        "string-char-rule" = "string-char-rule" ∧ b.heads = []) ∧ True :=
    .pure h ⟨⟨⟨hread, hvisible (.inl rfl), hknown⟩, ⟨fun _ _ => not_awaits_of_heads_nil hheads,
      fun t ht => hbody.congr rfl ht⟩, rfl, hheads⟩, trivial⟩
  obtain ⟨ref, r', heq, hn, hg, ⟨-, hans⟩, -⟩ :
      Step (Neat given) (fun n b => n = "string-char-rule" ∧ b.heads = []) r stringChar _ :=
    neat_reserved h (by decide) (.inl hlead) (fun hg => h.given hg (.inl hlead)) (fun _ => hstep)
      (fun _ hb => hb) fun _ _ hb => hb.elim
  exact ⟨ref, r', heq, hn, hg, hans .stringChar rfl⟩

/-- The body of a leaf. -/
theorem neat_terminalBody (h : r.Neat given) (t : Terminal) :
    Step (Neat given)
      (fun n b => (t.isString = true ∧ n = "string-char-rule") ∧ b.heads = []) r (terminalBody t)
      fun b r' => r'.HasBody b t := by
  cases t with
  | string bounds =>
    refine ((neat_stringChar h).weaken fun n b hb => ⟨⟨rfl, hb.1⟩, hb.2⟩).bind ?_
    rintro _ r' hn - ⟨name, found, _, rfl, hget, rfl, htext⟩
    exact .pure hn ⟨name, found, hget, htext, rfl⟩
  | _ => exact .pure h rfl

/-- **A leaf has a reference that awaits nothing**: its rule, or its text. If the leaf has words,
the reference stands for it. -/
theorem neat_terminal (h : r.Neat given) (t : Terminal) :
    Step (Neat given) PlainRule r (terminal t) fun ref r' =>
      Grounded given r' ref ∧ (t.ruleName?.isSome = true → IsRule ref ∧ r'.Answers t ref) ∧
        (t.WellFormed → ref.IsReference ∧
          ∀ shapes owners, Resolves shapes owners r'.entries (.terminal t) ref) := by
  cases hn : t.ruleName? with
  | none =>
    obtain ⟨text, hbody, hne⟩ := t.exists_body_eq_literal hn
    have hs : t.isString = false := by
      cases t with
      | string bounds => cases hn
      | _ => rfl
    have heq : terminal t = Pure.pure (.literal text) := by
      rw [← hbody, terminal, hn]
      cases t with
      | string bounds => cases hn
      | _ => rfl
    rw [heq]
    refine .pure h ⟨.of_heads_nil (namesIn_literal text) (by simp),
      fun hsome => absurd hsome Bool.false_ne_true,
      fun hw => ⟨.inr ⟨text, hne hw, rfl⟩, fun shapes owners => ?_⟩⟩
    rw [← hbody]
    exact .built [] (by simp) (translates_terminal hs) (.refl _)
  | some name =>
    have hlead := Terminal.leadWord_mem hn
    have heq : terminal t = reserved name (terminalBody t) := by
      rw [terminal, hn]
    have hname : t.isString = true → name ≠ "string-char-rule" := by
      intro hs
      cases t with
      | string bounds =>
        rw [← Option.some.inj hn]
        exact bounds.ruleName_ne
      | _ => cases hs
    have hbody : Step (Neat given)
        (fun n b => (t.isString = true ∧ n = "string-char-rule") ∧ b.heads = []) r (terminalBody t)
        fun b r' => (r'.Written given b ∧ r'.Befits name b ∧ PlainRule name b) ∧ True := by
      obtain ⟨b, r', hrun, hneat, hg, hb⟩ := neat_terminalBody h t
      obtain ⟨hread, hknown, hheads, hvis⟩ := hb.spec hneat
      exact ⟨b, r', hrun, hneat, hg, ⟨⟨hread, hvis (.inl (by rw [hn]; rfl)), hknown⟩,
        ⟨fun _ _ => not_awaits_of_heads_nil hheads, fun t' ht' => hb.congr hn ht'⟩, .inl hlead,
        hheads⟩, trivial⟩
    rw [heq]
    obtain ⟨ref, r', hrun, hneat, hg, ⟨⟨href, hrule⟩, hans⟩, -⟩ :=
      neat_reserved h (Terminal.isName_of_ruleName? hn) (.inl hlead)
        (fun hg => h.given hg (.inl hlead)) (fun _ => hbody)
        (fun _ hb => hname hb.1.1 hb.1.2) fun n b hb => ⟨.inl (hb.1.2 ▸ by decide), hb.2⟩
    exact ⟨ref, r', hrun, hneat, hg, href, fun _ => ⟨hrule, hans t hn⟩, fun hw =>
      ⟨.inl hrule, (hans t hn).resolves hneat hw⟩⟩

/-! ## Containers -/

/-- The rule of a leaf. -/
structure Serves (given : String → Prop) (r : Rules) (t : Terminal) (ref : Body) : Prop where
  grounded : Grounded given r ref
  isRule : IsRule ref
  answers : r.Answers t ref

theorem Serves.mono {t : Terminal} (hs : Serves given r t ref) (h : r.Neat given)
    (hg : r.Grows PlainRule r') : Serves given r' t ref :=
  ⟨hs.grounded.mono h hg h.not_given_of_plainRule, hs.isRule, hs.answers.mono hg.keeps⟩

/-- The rule of a leaf that has one. -/
theorem neat_terminal_rule (h : r.Neat given) {t : Terminal} (ht : t.ruleName?.isSome = true) :
    Step (Neat given) PlainRule r (terminal t) fun ref r' => Serves given r' t ref := by
  obtain ⟨ref, r', hrun, hneat, hg, href, hrule, -⟩ := neat_terminal h t
  exact ⟨ref, r', hrun, hneat, hg, href, (hrule ht).1, (hrule ht).2⟩

/-- The blanks of a container as rules. -/
structure Blanks (given : String → Prop) (r : Rules) (layout : Layout) (inner outer : Body) :
    Prop where
  inner : Serves given r (.whitespace layout.descend) inner
  outer : Serves given r (.whitespace layout) outer

section

variable {layout : Layout} {inner outer : Body}

theorem Blanks.isSegment (h : Blanks given r layout inner outer) :
    inner.IsSegment ∧ outer.IsSegment :=
  ⟨h.inner.isRule.isPart.segment, h.outer.isRule.isPart.segment⟩

theorem Blanks.mono (hb : Blanks given r layout inner outer) (h : r.Neat given)
    (hg : r.Grows PlainRule r') : Blanks given r' layout inner outer :=
  ⟨hb.inner.mono h hg, hb.outer.mono h hg⟩

theorem Blanks.resolves (hb : Blanks given r layout inner outer) (h : r.Neat given)
    (shapes : Shapes) (owners : Owners) :
    ∀ p ∈ blankParts layout inner outer, Resolves shapes owners r.entries p.1 p.2 := by
  simp only [blankParts, List.forall_mem_cons, List.not_mem_nil, false_implies, implies_true,
    and_true]
  exact ⟨hb.inner.answers.resolves h trivial shapes owners,
    hb.outer.answers.resolves h trivial shapes owners⟩

end

theorem neat_spacing (h : r.Neat given) (layout : Layout) :
    Step (Neat given) PlainRule r (spacing layout) fun s r' =>
      Blanks given r' layout s.1 s.2.1 ∧ s.2.2 = Grammar.sequence [.literal ",", s.1] := by
  refine (neat_terminal_rule h (t := .whitespace layout.descend) rfl).bind
    fun inner r₁ h₁ _ hin => ?_
  refine (neat_terminal_rule h₁ (t := .whitespace layout) rfl).bind fun outer r₂ h₂ hg₂ hout => ?_
  exact .pure h₂ ⟨⟨hin.mono h₁ hg₂, hout⟩, rfl⟩

/-- A body in brackets, which begins with a literal. -/
structure Bracketed (given : String → Prop) (r : Rules) (body : Body) : Prop where
  isPart : body.IsPart
  known : body.NamesIn (r.Knows given)
  heads : body.heads = []

/-- The body of a list. -/
theorem neat_array (h : r.Neat given) (layout : Layout) {leading : List Body}
    (hl : ∀ b ∈ leading, b.IsPart ∧ b.NamesIn (r.Knows given)) {item : Body} (hi : item.IsPart)
    (hik : item.NamesIn (r.Knows given)) (least : Nat) (most : Option Nat) :
    Step (Neat given) PlainRule r (array layout leading item least most) fun body r' =>
      Bracketed given r' body ∧ ∃ inner outer, Blanks given r' layout inner outer ∧
        body = arrayBody inner outer leading item least most := by
  refine (neat_spacing h layout).bind ?_
  rintro ⟨inner, outer, separator⟩ r' h' hg ⟨hblanks, hseparator : separator = _⟩
  have hmono : ∀ n, r.Knows given n → r'.Knows given n := fun n hn => hn.mono hg.keeps fun _ => id
  have hparts : ∀ b ∈ leading, b.IsPart := fun b hb => (hl b hb).1
  obtain ⟨hin, hout⟩ := hblanks.isSegment
  rw [hseparator]
  refine .pure h' ⟨⟨isPart_arrayBody hin hout hparts hi least most, ?_,
    heads_arrayBody hin hout hparts hi least most⟩, inner, outer, hblanks, rfl⟩
  exact namesIn_arrayBody hblanks.inner.grounded.known hblanks.outer.grounded.known
    (fun b hb => (hl b hb).2.mono hmono) (hik.mono hmono) least most

/-- The body of an object. -/
theorem neat_object (h : r.Neat given) (layout : Layout) {members : List Member}
    (hm : ∀ m ∈ members, m.entry.IsPart ∧ m.entry.NamesIn (r.Knows given))
    {additional : Option Body}
    (ha : ∀ x ∈ additional, x.IsSegment ∧ x.NamesIn (r.Knows given)) :
    Step (Neat given) PlainRule r (object layout members additional) fun body r' =>
      Bracketed given r' body ∧ ∃ inner outer, Blanks given r' layout inner outer ∧
        body = objectBody inner outer members additional := by
  refine (neat_spacing h layout).bind ?_
  rintro ⟨inner, outer, separator⟩ r' h' hg ⟨hblanks, hseparator : separator = _⟩
  have hmono : ∀ n, r.Knows given n → r'.Knows given n := fun n hn => hn.mono hg.keeps fun _ => id
  have hparts : ∀ m ∈ members, m.entry.IsPart := fun m hb => (hm m hb).1
  have hsegments : ∀ x ∈ additional, x.IsSegment := fun x hx => (ha x hx).1
  obtain ⟨hin, hout⟩ := hblanks.isSegment
  rw [hseparator]
  refine .pure h' ⟨⟨isPart_objectBody hin hout hparts hsegments, ?_,
    heads_objectBody hin hout hparts hsegments⟩, inner, outer, hblanks, rfl⟩
  exact namesIn_objectBody hblanks.inner.grounded.known hblanks.outer.grounded.known
    (fun m hb => (hm m hb).2.mono hmono) fun x hx => (ha x hx).2.mono hmono

/-- A body in brackets gets a rule that awaits nothing. -/
theorem neat_intern (h : r.Neat given) (hb : Bracketed given r b) :
    Step (Neat given) PlainRule r (intern b none) fun ref r' =>
      ((Grounded given r' ref ∧ IsRule ref) ∧ Denotes r'.entries ref b) ∧
        ∃ n found, ref = .rule n ∧ r'.entries.get? n = some found ∧ found.text = b.text := by
  obtain ⟨ref, r', heq, hi⟩ : ∃ ref r', intern b none r = (ref, r') ∧
      Entered given r b none ref r' :=
    intern_neat h (.of_isPart hb.isPart hb.known) fun _ hn => absurd hn (by simp)
  have hrule := hi.rule.resolve_left fun hname => by
    have hheads := hb.heads
    rw [(Body.names_of_isName hb.isPart.segment.readable hname).2] at hheads
    exact absurd hheads (List.cons_ne_nil _ _)
  refine ⟨ref, r', heq, hi.neat, hi.grows.weaken ?_, ⟨⟨⟨hi.known, fun d ha =>
    not_awaits_of_heads_nil hb.heads (hi.awaits d ha)⟩, hi.isRule⟩, hi.denotes⟩, hrule⟩
  rintro n _ ⟨rfl, hn | ⟨-, hn⟩⟩
  · cases hn
  · exact ⟨.inr hn, hb.heads⟩

/-! ## Any JSON value -/

/-- `r.Means goal ref`: the reference stands for the goal, whatever the shapes are, if values on a
single line have the name reserved for them. -/
def Means (r : Rules) (goal : Goal) (ref : Body) : Prop :=
  ∀ shapes owners, (lineName, .line) ∈ owners → Resolves shapes owners r.entries goal ref

theorem Means.mono {goal : Goal} (h : r.Means goal ref) (he : Extends r.entries r'.entries) :
    r'.Means goal ref :=
  fun shapes owners hline => (h shapes owners hline).mono (List.Subset.refl _) he

theorem Serves.means {t : Terminal} (hs : Serves given r t ref) (h : r.Neat given)
    (hw : t.WellFormed) : r.Means (.terminal t) ref :=
  fun shapes owners _ => hs.answers.resolves h hw shapes owners

theorem isRule_line : IsRule (.rule lineName) := ⟨lineName, by decide, rfl⟩

/-- The body for any JSON value: a choice between rules that await nothing, among them that for
lists of values on a single line. -/
structure FreeBody (given : String → Prop) (r : Rules) (layout : Layout) (body : Body) : Prop where
  written : r.Written given body
  awaits : ∀ d, ¬ r.Awaits body d
  unnamed : ¬ IsName body.text
  list : ∃ n found inner outer, n ∈ body.heads ∧ r.entries.get? n = some found ∧ IsRule inner ∧
    IsRule outer ∧ found.text = (arrayBody inner outer [] (.rule lineName) 0 none).text
  drafts : ∀ shapes owners, (lineName, .line) ∈ owners →
    Drafts shapes owners r.entries (.json layout) body

theorem neat_freeList (h : r.Neat given) (layout : Layout) (hk : r.Knows given lineName) :
    Step (Neat given) PlainRule r
      (do intern (← array layout [] (.rule lineName) 0 none) none) fun ref r' =>
        ((Grounded given r' ref ∧ IsRule ref) ∧ r'.Means (.freeList layout) ref) ∧
        ∃ n found inner outer, ref = .rule n ∧ r'.entries.get? n = some found ∧ IsRule inner ∧
          IsRule outer ∧ found.text = (arrayBody inner outer [] (.rule lineName) 0 none).text := by
  have hn := isRule_line.isPart
  refine (neat_array h layout (by simp) hn (namesIn_rule hk) 0 none).bind ?_
  rintro body r₁ h₁ - ⟨hbody, inner, outer, hblanks, heqbody⟩
  -- with the body on the left, the other side would be evaluated before it is put in place
  obtain rfl := heqbody.symm
  obtain ⟨ref, r', heq, hneat, hg, ⟨href, hden⟩, n, found, hrule, hget, htext⟩ :=
    neat_intern h₁ hbody
  obtain ⟨hin, hout⟩ := hblanks.isSegment
  refine ⟨ref, r', heq, hneat, hg, ⟨href, fun shapes owners hline => ?_⟩, n, found, inner, outer,
    hrule, hget, hblanks.inner.isRule, hblanks.outer.isRule, htext⟩
  exact .built _ (List.forall_mem_append.mpr ⟨(hblanks.mono h₁ hg).resolves hneat shapes owners,
    List.forall_mem_singleton.mpr (.owner hline)⟩) (translates_freeList hin hout hn) hden

theorem neat_freeObject (h : r.Neat given) (layout : Layout) {key : Body}
    (hkey : Serves given r (.string {}) key) (hk : r.Knows given lineName) :
    Step (Neat given) PlainRule r
      (do intern (← object layout [] (some (entry key (.rule lineName)))) none) fun ref r' =>
        (Grounded given r' ref ∧ IsRule ref) ∧ r'.Means (.freeObject layout) ref := by
  have hn := isRule_line.isPart
  have hentry : (entry key (.rule lineName)).IsSegment :=
    (isPart_entry hkey.isRule.isPart.segment hn.segment).segment
  have hmembers : ∀ m ∈ ([] : List Member), m.entry.IsPart ∧ m.entry.NamesIn (r.Knows given) :=
    fun _ hm => absurd hm List.not_mem_nil
  refine (neat_object h layout hmembers
    (by simp [hentry, namesIn_entry hkey.grounded.known (namesIn_rule hk)])).bind ?_
  rintro _ r₁ h₁ hg₁ ⟨hbody, inner, outer, hblanks, rfl⟩
  obtain ⟨ref, r', heq, hneat, hg, ⟨href, hden⟩, -⟩ := neat_intern h₁ hbody
  obtain ⟨hin, hout⟩ := hblanks.isSegment
  refine ⟨ref, r', heq, hneat, hg, href, fun shapes owners hline => ?_⟩
  have hstring := (hkey.mono h (hg₁.trans hg)).means hneat (by simp [Terminal.WellFormed])
  exact .built _ (List.forall_mem_append.mpr ⟨(hblanks.mono h₁ hg).resolves hneat shapes owners,
    List.forall_mem_cons.mpr ⟨hstring shapes owners hline,
      List.forall_mem_singleton.mpr (.owner hline)⟩⟩)
    (translates_freeObject hin hout hkey.isRule.isPart hn) hden

theorem neat_anyJsonBody (h : r.Neat given) (layout : Layout) (hk : r.Knows given lineName) :
    Step (Neat given) PlainRule r (anyJsonBody layout (.rule lineName)) fun body r' =>
      FreeBody given r' layout body := by
  have hmono : ∀ {r r' : Rules}, r.Grows PlainRule r' → r.Knows given lineName →
      r'.Knows given lineName := fun hg hk => hk.mono hg.keeps fun _ => id
  unfold anyJsonBody
  refine (neat_terminal_rule h (t := .string {}) rfl).bind fun string r₁ h₁ g₁ hstring => ?_
  refine (neat_terminal_rule h₁ (t := .number true) rfl).bind fun number r₂ h₂ g₂ hnumber => ?_
  refine (neat_terminal_rule h₂ (t := .boolean) rfl).bind fun boolean r₃ h₃ g₃ hboolean => ?_
  refine (neat_terminal_rule h₃ (t := .null) rfl).bind fun null r₄ h₄ g₄ hnull => ?_
  have g₁₄ := (g₂.trans g₃).trans g₄
  have hk₄ := hmono (g₁.trans g₁₄) hk
  refine (neat_freeList h₄ layout hk₄).bind₂ ?_
  rintro list r₅ h₅ g₅ ⟨⟨hlist, hlistMeans⟩, n, found, inner, outer, rfl, hget, hir, hor, htext⟩
  have hs₅ := hstring.mono h₁ (g₁₄.trans g₅)
  refine (neat_freeObject h₅ layout hs₅ (hmono g₅ hk₄)).bind₂
    fun map r₆ h₆ g₆ ⟨hmap, hmapMeans⟩ => ?_
  have g₄₆ := g₅.trans g₆
  have hstring := hs₅.mono h₅ g₆
  have hnumber := hnumber.mono h₂ ((g₃.trans g₄).trans g₄₆)
  have hboolean := hboolean.mono h₃ (g₄.trans g₄₆)
  have hnull := hnull.mono h₄ g₄₆
  have hall : ∀ p ∈ [string, number, boolean, null, .rule n, map],
      Grounded given r₆ p ∧ IsRule p := by
    simp only [List.forall_mem_cons, List.not_mem_nil, false_implies, implies_true, and_true]
    exact ⟨⟨hstring.grounded, hstring.isRule⟩, ⟨hnumber.grounded, hnumber.isRule⟩,
      ⟨hboolean.grounded, hboolean.isRule⟩, ⟨hnull.grounded, hnull.isRule⟩,
      ⟨hlist.1.mono h₅ g₆ h₅.not_given_of_plainRule, hlist.2⟩, hmap⟩
  have hmeans : ∀ p ∈ jsonParts layout string number boolean null (.rule n) map,
      r₆.Means p.1 p.2 := by
    simp only [jsonParts, List.forall_mem_cons, List.not_mem_nil, false_implies, implies_true,
      and_true]
    exact ⟨hstring.means h₆ (by simp [Terminal.WellFormed]), hnumber.means h₆ trivial,
      hboolean.means h₆ trivial, hnull.means h₆ trivial, hlistMeans.mono g₆.keeps, hmapMeans⟩
  have hread : (choice [string, number, boolean, null, .rule n, map]).Readable :=
    readable_choice (by simp) fun b hb => (hall b hb).2.isPart.segment.readable
  have hheads : ((choice [string, number, boolean, null, .rule n, map]).group .once).heads =
      [string, number, boolean, null, .rule n, map].flatMap Body.heads := by
    rw [Body.heads_group, heads_choice]
  refine .pure h₆ ⟨.of_isPart (Body.isPart_group hread .once) ?_, ?_, not_isName_text_group _ _,
    ⟨n, found, inner, outer, ?_, g₆.keeps _ _ hget, hir, hor, htext⟩, fun shapes owners hline =>
      ⟨_, fun p hp => hmeans p hp shapes owners hline,
        translates_json string number boolean null (.rule n) map⟩⟩
  · exact namesIn_group (namesIn_choice fun p hp => (hall p hp).1.known) _
  · rintro d ⟨hd, m, hm, hpath⟩
    rw [hheads] at hm
    obtain ⟨p, hp, hm⟩ := List.mem_flatMap.mp hm
    exact (hall p hp).1.awaits d ⟨hd, m, hm, hpath⟩
  · rw [hheads]
    exact List.mem_flatMap.mpr ⟨.rule n, by simp, List.mem_cons_self⟩

/-! ### The rule that nests itself -/

/-- **The rule that nests itself is not found under another name.** A rule with the same text begins
with rules, so it was there before; then it cannot lead to lists of the values that it is for. -/
theorem lineBody_unshared (h : r.Neat given) (hnew : lineName ∉ Assoc.keys r.entries)
    (hunused : ¬ given lineName) {given' : String → Prop} (h' : r'.Neat given')
    (hg : r.Grows PlainRule r') {layout : Layout} (hf : FreeBody given' r' layout b) :
    r'.byText.get? b.text = none := by
  by_contra hsome
  obtain ⟨name, hname⟩ := Option.ne_none_iff_exists'.mp hsome
  obtain ⟨same, hget, htext⟩ := h'.inverse.mp hname
  obtain ⟨hnames, hheads⟩ := Body.names_congr (h'.readable hget) hf.written.readable htext
  obtain ⟨n, list, inner, outer, hn, hlist, hir, hor, hlisttext⟩ := hf.list
  have hold : same.NamesIn (r.Knows given) := by
    rcases hg.added hget with hold | hadded
    · exact h.closed hold
    · rw [← hheads, hadded.2] at hn
      exact absurd hn List.not_mem_nil
  have hkey : n ∈ Assoc.keys r.entries := by
    rcases hold n (hnames ▸ b.heads_subset_names hn) with hkey | hgiven
    · exact hkey
    · rcases hg.added hlist with hold | hadded
      · exact Assoc.mem_keys_iff.mpr ⟨list, hold⟩
      · exact absurd hadded.1 (h.given hgiven)
  obtain ⟨found, hfound⟩ := Assoc.mem_keys_iff.mp hkey
  cases (hg.keeps _ _ hfound).symm.trans hlist
  have hin := hir.isPart.segment
  have hout := hor.isPart.segment
  have hpart : (arrayBody inner outer [] (.rule lineName) 0 none).IsPart :=
    isPart_arrayBody hin hout (by simp) isRule_line.isPart 0 none
  have hmem : lineName ∈ list.names := by
    rw [(Body.names_congr (h.readable hfound) hpart.segment.readable hlisttext).1]
    exact names_subset_arrayBody hin hout isRule_line.isPart List.mem_cons_self
  exact (h.closed hfound _ hmem).elim hnew hunused

/-- The rule for any JSON value on a single line is a draft of it. -/
def DraftsLine (r : Rules) : Prop :=
  ∀ shapes owners, (lineName, .line) ∈ owners → ∃ body,
    r.entries.get? lineName = some body ∧ Drafts shapes owners r.entries (.node .line) body

/-- What asking for any JSON value on a single line does: its rule was there, or is made. -/
structure Lined (r r' : Rules) : Prop where
  grows : r.Grows (fun n b => n = lineName ∨ PlainRule n b) r'
  bound : lineName ∈ Assoc.keys r'.entries
  drafts : r' = r ∨ r'.DraftsLine

/-- **The rule for any JSON value on a single line** is there in the end. -/
theorem neat_flatJson (h : r.Neat given) (hunused : ¬ given lineName) (layout : Layout) :
    Step (Neat given) (fun n b => n = lineName ∨ PlainRule n b) r (flatJson layout) fun ref r' =>
      ref = .rule lineName ∧ Lined r r' := by
  rw [flatJson_eq]
  by_cases hc : lineName ∈ Assoc.keys r.entries
  · exact ⟨_, r, reserved_of_mem hc _, h, .refl r, rfl, .refl r, hc, .inl rfl⟩
  · have hplain : ¬ IsPlainName lineName := not_isPlainName_anyJsonRule Shapes.lineLayout
    have hgiven : r.Neat fun n => n = lineName ∨ given n :=
      h.regive (fun n hn => .inr (.inr hn)) fun n hn => hn.elim (fun heq => heq ▸ hplain) h.given
    obtain ⟨body, r₁, heq, h₁, hg, hf⟩ := neat_anyJsonBody hgiven layout.flat (.inr (.inl rfl))
    have hc₁ : lineName ∉ Assoc.keys r₁.entries := hg.notMem_keys hc fun b hb => hplain hb.1
    have hnone := lineBody_unshared h hc hunused h₁ hg hf
    have hrun := intern_unnamed hf.written.visible hf.unnamed
      (fun n body hget => h₁.isName hget) (fun n ht => (h₁.named.taken n ht).1) lineName
    rw [hnone] at hrun
    have hbound : lineName ∈ Assoc.keys (r₁.bind lineName body).entries :=
      Assoc.mem_keys_insert.mpr (.inl rfl)
    have hneat : (r₁.bind lineName body).Neat given :=
      (h₁.bind hc₁ (by decide) (.inr (.inr (.inl (by decide)))) hf.written.readable
        hf.written.known hnone (hf.awaits lineName) (befits_of_any (by decide) hf.awaits)).regive
        (fun n hn => hn.elim (fun heq => .inl (heq ▸ hbound)) .inr) fun n => h.given
    have hgrows : r.Grows (fun n b => n = lineName ∨ PlainRule n b) (r₁.bind lineName body) :=
      (hg.weaken fun _ _ => .inr).trans
        ((grows_bind body hc₁).weaken fun _ _ hb => .inl hb.1)
    refine ⟨_, _, (reserved_of_notMem hc heq).trans hrun, hneat, hgrows, rfl, hgrows, hbound,
      .inr fun shapes owners hline => ⟨body, get?_bind_self, ?_⟩⟩
    exact ((hf.drafts shapes owners hline).mono (List.Subset.refl _) (extends_bind body hc₁)).congr
      fun _ => congrFun (jsonForm_eq_of_newLines_eq_false rfl rfl) _

/-- The rules for any JSON value stand for it, and that for values on a single line is in use for
them. -/
structure Faithful (shapes : Shapes) (owners : Owners) (r : Rules) : Prop where
  line : lineName ∈ Assoc.keys r.entries → (lineName, .line) ∈ owners
  json : ∀ layout : Layout, layout.anyJsonRule ∈ Assoc.keys r.entries →
    Resolves shapes owners r.entries (.json layout) (.rule layout.anyJsonRule)

section

variable {shapes : Shapes} {owners owners' : Owners}

theorem Faithful.mono (h : r.Faithful shapes owners) (ho : owners ⊆ owners') :
    r.Faithful shapes owners' :=
  ⟨fun hc => ho (h.line hc), fun layout hc => (h.json layout hc).mono ho (Extends.refl _)⟩

/-- Rules under other names change nothing. -/
theorem Faithful.grow (h : r.Faithful shapes owners) (hg : r.Grows new r')
    (hnew : ∀ n b, new n b → leadWord n ≠ "any".toList) : r'.Faithful shapes owners := by
  have hold : ∀ n, leadWord n = "any".toList → n ∈ Assoc.keys r'.entries →
      n ∈ Assoc.keys r.entries := by
    intro n hn hc
    by_contra hout
    exact hg.notMem_keys hout (fun b hb => hnew n b hb hn) hc
  exact ⟨fun hc => h.line (hold _ (by decide) hc), fun layout hc =>
    (h.json layout (hold _ layout.leadWord_anyJsonRule hc)).mono (List.Subset.refl _) hg.keeps⟩

/-- What putting any JSON value into a table does. The name for values on a single line may have
been given away meanwhile; then it is settled. -/
structure Settling (shapes : Shapes) (owners : Owners) (owners' : Owners) (r' : Rules) : Prop where
  subset : owners ⊆ owners'
  faithful : r'.Faithful shapes owners'
  settled : ∀ o ∈ owners', o ∈ owners ∨ Settled shapes owners' r'.entries o.1 o.2

theorem Settling.refl (h : r.Faithful shapes owners) : Settling shapes owners owners r :=
  ⟨List.Subset.refl _, h, fun _ => .inl⟩

/-- Putting in any JSON value on a single line. -/
theorem Lined.exists_settling (hl : Lined r r') (h : r.Faithful shapes owners) :
    ∃ owners', Settling shapes owners owners' r' := by
  rcases hl.drafts with rfl | hdraft
  · exact ⟨owners, .refl h⟩
  · obtain ⟨body, hget, hd⟩ := hdraft shapes ((lineName, .line) :: owners) List.mem_cons_self
    refine ⟨(lineName, .line) :: owners, List.subset_cons_self _ _,
      ⟨fun _ => List.mem_cons_self, fun layout hc => ?_⟩, fun o ho => ?_⟩
    · by_cases heq : layout.anyJsonRule = lineName
      · have hform : jsonForm Shapes.lineLayout = jsonForm layout :=
          (Layout.jsonForm_eq_of_anyJsonRule_eq heq).1.symm
        have hjson : Drafts shapes ((lineName, .line) :: owners) r'.entries (.json layout) body :=
          hd.congr fun _ => congrFun hform _
        rw [heq]
        exact hjson.resolves (.of_get? hget (.refl body))
      · have hold : layout.anyJsonRule ∈ Assoc.keys r.entries := by
          by_contra hout
          exact hl.grows.notMem_keys hout (fun b hb => hb.elim heq fun hb =>
            not_isPlainName_anyJsonRule layout hb.1) hc
        exact (h.json layout hold).mono (List.subset_cons_self _ _) hl.grows.keeps
    · rcases List.mem_cons.mp ho with rfl | ho
      · exact .inr ⟨.line, body, body, .inl rfl, hget, .refl body, hd⟩
      · exact .inl ho

/-- Putting in any other JSON value after that. -/
theorem Settling.json {layout : Layout} {r₁ : Rules} (hs : Settling shapes owners owners' r)
    (hline : lineName ∈ Assoc.keys r.entries) (hg : r.Grows PlainRule r₁)
    (hf : FreeBody given r₁ layout b)
    (hi : Entered given r₁ b (some layout.anyJsonRule) ref r') :
    Settling shapes owners owners' r' ∧ Resolves shapes owners' r'.entries (.json layout) ref := by
  have hsub := List.Subset.refl owners'
  have hmem := hs.faithful.line hline
  have hkeeps := hg.keeps.trans hi.grows.keeps
  have hd := (hf.drafts shapes owners' hmem).mono hsub hi.grows.keeps
  refine ⟨⟨hs.subset, ⟨fun _ => hmem, fun layout' hc => ?_⟩, fun o ho =>
    (hs.settled o ho).imp_right (·.mono hsub hkeeps)⟩, hd.resolves hi.denotes⟩
  obtain ⟨found, hget⟩ := Assoc.mem_keys_iff.mp hc
  rcases hi.grows.added hget with hold | ⟨rfl, hname | ⟨hname, -⟩⟩
  · have hold : layout'.anyJsonRule ∈ Assoc.keys r.entries := by
      by_contra hout
      exact hg.notMem_keys hout (fun b hb => not_isPlainName_anyJsonRule layout' hb.1)
        (Assoc.mem_keys_iff.mpr ⟨found, hold⟩)
    exact (hs.faithful.json layout' hold).mono hsub hkeeps
  · have hform := (Layout.jsonForm_eq_of_anyJsonRule_eq (Option.some.inj hname)).1
    have hjson : Drafts shapes owners' r'.entries (.json layout') found :=
      hd.congr fun _ => congrFun hform _
    exact hjson.resolves (.of_get? hget (.refl found))
  · cases hname

end

/-- **Any JSON value has a rule** that awaits nothing and stands for it. -/
theorem neat_anyJson (h : r.Neat given) (hgiven : ∀ n, given n → IsDefinitionName n)
    (layout : Layout) :
    Step (Neat given) (fun n _ => ¬ IsDefinitionName n) r (anyJson layout) fun ref r' =>
      (Grounded given r' ref ∧ IsRule ref) ∧ ∀ shapes owners, r.Faithful shapes owners →
        ∃ owners', Settling shapes owners owners' r' ∧
          Resolves shapes owners' r'.entries (.json layout) ref := by
  have hany : ∀ n, leadWord n = "any".toList → ¬ IsDefinitionName n := fun n hn hdef => by
    rw [hdef.2] at hn
    exact absurd hn (by decide)
  have hnew : ∀ n b, n = lineName ∨ PlainRule n b → ¬ IsDefinitionName n := by
    rintro n b (rfl | hplain)
    · exact hany _ (by decide)
    · exact Emitter.not_isDefinitionName_of_isPlainName hplain.1
  have hflat := neat_flatJson h (fun hg => hany _ (by decide) (hgiven _ hg)) layout
  unfold anyJson
  split_ifs with hl
  · have hlead := layout.leadWord_anyJsonRule
    have hbody : Step (Neat given) (fun n b => n = lineName ∨ PlainRule n b) r
        (flatJson layout >>= anyJsonBody layout) fun b r' => (r'.Written given b ∧
          r'.Befits layout.anyJsonRule b ∧ ¬ IsDefinitionName layout.anyJsonRule) ∧
          ∃ r₁, Lined r r₁ ∧ r₁.Grows PlainRule r' ∧ FreeBody given r' layout b := by
      refine hflat.bind ?_
      rintro _ r₁ h₁ - ⟨rfl, hline⟩
      obtain ⟨b, r₂, hrun, h₂, hg, hf⟩ := neat_anyJsonBody h₁ layout (.inl hline.bound)
      exact ⟨b, r₂, hrun, h₂, hg.weaken fun _ _ => .inr, ⟨hf.written,
        befits_of_any hlead hf.awaits, hany _ hlead⟩, r₁, hline, hg, hf⟩
    have hself : ∀ b, ¬ (layout.anyJsonRule = lineName ∨ PlainRule layout.anyJsonRule b) := by
      rintro b (heq | hplain)
      · exact lineName_ne_anyJsonRule hl heq
      · exact not_isPlainName_anyJsonRule layout hplain.1
    obtain ⟨ref, r', heq, hn, hg, ⟨href, -⟩, hcases⟩ :=
      neat_reserved h layout.isName_anyJsonRule (.inr hlead)
        (fun hg => hany _ hlead (hgiven _ hg)) (fun _ => hbody) hself hnew
    refine ⟨ref, r', heq, hn, hg, href, fun shapes owners hfaithful => ?_⟩
    rcases hcases with ⟨hc, rfl, rfl⟩ | ⟨b, r₂, ⟨r₁, hline, hg₂, hf⟩, hi⟩
    · exact ⟨owners, .refl hfaithful, hfaithful.json layout hc⟩
    · obtain ⟨owners', hs⟩ := hline.exists_settling hfaithful
      exact ⟨owners', hs.json hline.bound hg₂ hf hi⟩
  · obtain ⟨_, r', heq, hn, hg, rfl, hline⟩ := hflat
    have hname : layout.anyJsonRule = lineName := by
      rw [Layout.anyJsonRule, if_neg hl]
      rfl
    refine ⟨_, r', heq, hn, hg.weaken hnew,
      ⟨hn.grounded_rule (.inr (by decide)) hline.bound, isRule_line⟩,
      fun shapes owners hfaithful => ?_⟩
    obtain ⟨owners', hs⟩ := hline.exists_settling hfaithful
    exact ⟨owners', hs, hname ▸ hs.faithful.json layout (hname ▸ hline.bound)⟩

end

end Rules

end SchemaGrammar
