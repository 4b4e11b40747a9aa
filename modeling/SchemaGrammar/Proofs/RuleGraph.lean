import SchemaGrammar.Proofs.MentionedNames
import SchemaGrammar.Proofs.RuleGrowth
import SchemaGrammar.Proofs.ShapeGraph

/-!
# What a rule can begin with

A rule may begin with the rules at the head of its body. In a table that is being made, following
the heads ends at names that have no rule yet, those of definitions in progress: the body awaits
them. Binding such a name makes whatever awaited it await what its own body awaits, and closes a
cycle exactly if the body awaits the name.

`Rules.Neat` is what holds of the table of a schema at any time, seen in this way. It does not say
what the rules match, but for leaves it says which bodies they have.

## Main definitions

* `Rules.Leads`, `Rules.Awaits`: what a rule begins with, and what a body waits for.
* `Rules.Neat`: the table is closed and without cycles, and texts and names correspond.

## Main results

* `Rules.Neat.bind`: when a name may be bound.
* `intern_neat`: the rule for a body denotes it and awaits what it awaits.
* `Rules.Neat.aliasOf`: another name of a body awaits what the body awaits, and has no rule yet.
-/

namespace SchemaGrammar

open Grammar
open Relation (ReflTransGen TransGen)

namespace Grammar

/-- A body whose text is a name mentions just this name. -/
theorem Body.names_of_isName {b : Body} (hr : b.Readable) (h : IsName b.text) :
    b.names = [b.text] ∧ b.heads = [b.text] :=
  Body.names_congr hr (Body.isSegment_rule h).readable (Body.text_rule b.text).symm

end Grammar

namespace Rules

/-! ## Leading and awaiting -/

/-- The rule `a` may begin with the rule `b`. -/
def Leads (r : Rules) (a b : String) : Prop :=
  ∃ body, r.entries.get? a = some body ∧ b ∈ body.heads

/-- A body may begin with a name that has no rule yet. -/
def Awaits (r : Rules) (b : Body) (name : String) : Prop :=
  name ∉ Assoc.keys r.entries ∧ ∃ n ∈ b.heads, ReflTransGen r.Leads n name

/-- The names that are bound or given away. -/
def Knows (given : String → Prop) (r : Rules) (name : String) : Prop :=
  name ∈ Assoc.keys r.entries ∨ given name

/-- A name that is reserved for a leaf or for any JSON value. -/
def IsReservedName (name : String) : Prop :=
  leadWord name ∈ terminalLeads ∨ leadWord name = "any".toList

/-- `body` is the body of the leaf `t`, given the rules that there are. -/
def HasBody (r : Rules) (body : Body) (t : Terminal) : Prop :=
  match t with
  | .string bounds => ∃ name found, r.entries.get? name = some found ∧
    found.text = stringCharBody.text ∧ body = stringBody bounds (.rule name)
  | t => body = t.body .empty

/-- What is asked of a body under a reserved name: it awaits nothing, and is that of the leaf. -/
structure Befits (r : Rules) (name : String) (body : Body) : Prop where
  grounded : IsReservedName name → ∀ d, ¬ r.Awaits body d
  isBody : ∀ t : Terminal, t.ruleName? = some name → r.HasBody body t

/-- What holds of the rules of a schema at any time, while the names in `given` are in use without
having a rule. -/
structure Neat (given : String → Prop) (r : Rules) : Prop where
  named : r.Named
  isName : ∀ {name body}, r.entries.get? name = some body → IsName name
  readable : ∀ {name body}, r.entries.get? name = some body → body.Readable
  closed : ∀ {name body}, r.entries.get? name = some body → body.NamesIn (r.Knows given)
  inverse : ∀ {text name}, r.byText.get? text = some name ↔
    ∃ body, r.entries.get? name = some body ∧ body.text = text
  acyclic : ∀ name, ¬ TransGen r.Leads name name
  befits : ∀ {name body}, r.entries.get? name = some body → r.Befits name body
  given : ∀ {name}, given name → ¬ IsPlainName name

section

variable {given given' : String → Prop} {r r' : Rules} {name d : String} {b body : Body}

/-- A rule awaits what its body awaits. -/
theorem awaits_of_rule (hget : r.entries.get? name = some body) (h : r.Awaits (.rule name) d) :
    r.Awaits body d := by
  obtain ⟨hd, n, hn, hpath⟩ := h
  cases List.mem_singleton.mp hn
  rcases hpath.cases_head with heq | ⟨next, ⟨found, hfound, hnext⟩, hrest⟩
  · exact absurd (Assoc.mem_keys_iff.mpr ⟨body, heq ▸ hget⟩) hd
  · cases hget.symm.trans hfound
    exact ⟨hd, next, hnext, hrest⟩

theorem Awaits.of_heads_subset (h : r.Awaits b d) (hsub : b.heads ⊆ body.heads) :
    r.Awaits body d :=
  ⟨h.1, h.2.imp fun _ hn => ⟨hsub hn.1, hn.2⟩⟩

theorem not_awaits_of_heads_nil (h : b.heads = []) : ¬ r.Awaits b d := by
  rintro ⟨-, n, hn, -⟩
  rw [h] at hn
  exact absurd hn List.not_mem_nil

theorem HasBody.mono {t : Terminal} (h : r.HasBody b t) (he : Extends r.entries r'.entries) :
    r'.HasBody b t := by
  cases t with
  | string bounds =>
    obtain ⟨name, found, hget, htext⟩ := h
    exact ⟨name, found, he _ _ hget, htext⟩
  | _ => exact h

theorem befits_of_not_reserved (h : ¬ IsReservedName name) (b : Body) : r.Befits name b :=
  ⟨fun hr => absurd hr h, fun _ ht => absurd (.inl (Terminal.leadWord_mem ht)) h⟩

theorem not_isReservedName_of_isDefinitionName (h : IsDefinitionName name) :
    ¬ IsReservedName name := by
  rintro (hlead | hlead) <;> rw [h.2] at hlead <;> exact absurd hlead (by decide)

theorem Knows.mono (he : Extends r.entries r'.entries) (hg : ∀ n, given n → given' n)
    (h : r.Knows given name) : r'.Knows given' name := by
  rcases h with h | h
  · obtain ⟨body, hget⟩ := Assoc.mem_keys_iff.mp h
    exact .inl (Assoc.mem_keys_iff.mpr ⟨body, he _ _ hget⟩)
  · exact .inr (hg name h)

theorem Neat.knows_of_leads (h : r.Neat given) {n m : String} (hl : r.Leads n m) :
    r.Knows given m := by
  obtain ⟨body, hget, hm⟩ := hl
  exact h.closed hget m (body.heads_subset_names hm)

theorem Neat.knows_of_reaches (h : r.Neat given) {n m : String} (hn : r.Knows given n)
    (hpath : ReflTransGen r.Leads n m) : r.Knows given m := by
  rcases hpath.cases_tail with rfl | ⟨_, -, hl⟩
  · exact hn
  · exact h.knows_of_leads hl

/-- What a body of known names awaits was given away. -/
theorem Neat.given_of_awaits (h : r.Neat given) (hb : b.NamesIn (r.Knows given))
    (ha : r.Awaits b d) : given d := by
  obtain ⟨hd, n, hn, hpath⟩ := ha
  exact (h.knows_of_reaches (hb n (b.heads_subset_names hn)) hpath).resolve_left hd

/-- Names may be given away, or no longer be so once they are bound. -/
theorem Neat.regive (h : r.Neat given) (hk : ∀ n, given n → r.Knows given' n)
    (hp : ∀ n, given' n → ¬ IsPlainName n) : r.Neat given' where
  named := h.named
  isName := h.isName
  readable := h.readable
  closed hget := (h.closed hget).mono fun n hn => hn.elim .inl (hk n)
  inverse := h.inverse
  acyclic := h.acyclic
  befits := h.befits
  given := hp _

/-- Rules under names that were not given away change nothing for what was there. -/
theorem Neat.awaits_of_extends (h : r.Neat given) (he : Extends r.entries r'.entries)
    (hold : ∀ n, given n → n ∈ Assoc.keys r'.entries → n ∈ Assoc.keys r.entries)
    (hb : b.NamesIn (r.Knows given)) (ha : r'.Awaits b d) : r.Awaits b d := by
  obtain ⟨hd, n, hn, hpath⟩ := ha
  have hkeys : ∀ m, m ∈ Assoc.keys r.entries → m ∈ Assoc.keys r'.entries := by
    intro m hm
    obtain ⟨body, hget⟩ := Assoc.mem_keys_iff.mp hm
    exact Assoc.mem_keys_iff.mpr ⟨body, he _ _ hget⟩
  refine ⟨fun hk => hd (hkeys d hk), n, hn, ?_⟩
  -- a path that starts from a known name stays among the old rules
  have hknown : r.Knows given n := hb n (b.heads_subset_names hn)
  clear hn hb
  induction hpath using ReflTransGen.head_induction_on with
  | refl => exact .refl
  | @head n m hstep _ ih =>
    obtain ⟨found, hfound, hm⟩ := hstep
    have hkey : n ∈ Assoc.keys r.entries :=
      hknown.elim id fun hg => hold n hg (Assoc.mem_keys_iff.mpr ⟨found, hfound⟩)
    obtain ⟨old, hget⟩ := Assoc.mem_keys_iff.mp hkey
    cases (he _ _ hget).symm.trans hfound
    have hleads : r.Leads n m := ⟨found, hget, hm⟩
    exact .head hleads (ih (h.knows_of_leads hleads))

/-! ## Binding a name -/

theorem leads_bind (n m : String) (h : (r.bind name body).Leads n m) :
    r.Leads n m ∨ n = name ∧ m ∈ body.heads := by
  obtain ⟨found, hget, hm⟩ := h
  rw [get?_bind] at hget
  split_ifs at hget with heq
  · cases hget
    exact .inr ⟨heq, hm⟩
  · exact .inl ⟨found, hget, hm⟩

section

variable (hnew : name ∉ Assoc.keys r.entries)

include hnew

/-- What awaited the name awaits what its body does. -/
theorem awaits_bind (h : (r.bind name body).Awaits b d) :
    r.Awaits b d ∨ r.Awaits b name ∧ r.Awaits body d := by
  obtain ⟨hd, n, hn, hpath⟩ := h
  have hd' : d ∉ Assoc.keys r.entries := fun hk => hd (Assoc.mem_keys_insert.mpr (.inr hk))
  rcases reflTransGen_of_new leads_bind hpath with hold | ⟨hto, m, hm, hfrom⟩
  · exact .inl ⟨hd', n, hn, hold⟩
  · exact .inr ⟨⟨hnew, n, hn, hto⟩, hd', m, hm, hfrom⟩

theorem awaits_bind_self (h : (r.bind name body).Awaits (.rule name) d) : r.Awaits body d := by
  exact (awaits_bind hnew (awaits_of_rule get?_bind_self h)).elim id And.right

/-- **A name may be bound** to a body that has no rule yet and does not await it. -/
theorem Neat.bind (h : r.Neat given) (hname : IsName name) (hkind : r.IsKind name)
    (hread : body.Readable) (hknown : body.NamesIn (r.Knows given))
    (htext : r.byText.get? body.text = none) (hloop : ¬ r.Awaits body name)
    (hbefits : r.Befits name body) : (r.bind name body).Neat given := by
  have he := extends_bind body hnew
  have hmono : ∀ n, r.Knows given n → (r.bind name body).Knows given n := fun n hn =>
    hn.mono he fun _ => id
  have hcases : ∀ {other found}, (r.bind name body).entries.get? other = some found →
      (other = name ∧ found = body) ∨ r.entries.get? other = some found := fun hget =>
    ((grows_bind body hnew).added hget).symm
  refine ⟨h.named.bind hkind body, ?_, ?_, ?_, ?_, ?_, ?_, h.given⟩
  · intro other found hget
    rcases hcases hget with ⟨rfl, rfl⟩ | hget
    · exact hname
    · exact h.isName hget
  · intro other found hget
    rcases hcases hget with ⟨rfl, rfl⟩ | hget
    · exact hread
    · exact h.readable hget
  · intro other found hget
    rcases hcases hget with ⟨rfl, rfl⟩ | hget
    · exact hknown.mono hmono
    · exact (h.closed hget).mono hmono
  · intro text other
    have hby : (r.bind name body).byText.get? text =
        if text = body.text then some name else r.byText.get? text := Assoc.get?_insert
    rw [hby]
    split_ifs with heq
    · subst heq
      constructor
      · rintro ⟨⟩
        exact ⟨body, get?_bind_self, rfl⟩
      · rintro ⟨found, hget, hfound⟩
        rcases hcases hget with ⟨rfl, -⟩ | hget
        · rfl
        · rw [h.inverse.mpr ⟨found, hget, hfound⟩] at htext
          cases htext
    · rw [h.inverse]
      constructor
      · rintro ⟨found, hget, hfound⟩
        exact ⟨found, he _ _ hget, hfound⟩
      · rintro ⟨found, hget, hfound⟩
        rcases hcases hget with ⟨-, rfl⟩ | hget
        · exact absurd hfound.symm heq
        · exact ⟨found, hget, hfound⟩
  · exact acyclic_of_new leads_bind h.acyclic fun n hn hpath => hloop ⟨hnew, n, hn, hpath⟩
  · intro other found hget
    have hold : r.Befits other found := by
      rcases hcases hget with ⟨rfl, rfl⟩ | hget
      · exact hbefits
      · exact h.befits hget
    exact ⟨fun hres d ha => (awaits_bind hnew ha).elim (hold.grounded hres d) fun ha =>
      hold.grounded hres name ha.1, fun t ht => (hold.isBody t ht).mono he⟩

end

/-! ## The rule for a body -/

/-- A body that can be written and mentions known names. -/
structure Written (given : String → Prop) (r : Rules) (b : Body) : Prop where
  readable : b.Readable
  visible : b.isBlank = false
  known : b.NamesIn (r.Knows given)

theorem Written.of_isPart (hp : b.IsPart) (hk : b.NamesIn (r.Knows given)) : r.Written given b :=
  ⟨hp.segment.readable, hp.visible, hk⟩

/-- What interning a body gives: a rule for it, in a table that has at most one more. -/
structure Entered (given : String → Prop) (r : Rules) (body : Body) (preferred : Option String)
    (ref : Body) (r' : Rules) : Prop where
  neat : r'.Neat given
  grows : r.Grows (fun n b => b = body ∧ (preferred = some n ∨ preferred = none ∧ IsNumbered n)) r'
  isRule : IsRule ref
  known : ref.NamesIn (r'.Knows given)
  awaits : ∀ d, r'.Awaits ref d → r.Awaits body d
  denotes : Denotes r'.entries ref body
  rule : IsName body.text ∨
    ∃ n found, ref = .rule n ∧ r'.entries.get? n = some found ∧ found.text = body.text

/-- Which names are taken and which number comes next is between a table and its names only. -/
theorem Neat.retake (h : r.Neat given) {taken : List String} {next : Nat}
    (hnamed : Named { r with taken := taken, nextNumber := next }) :
    Neat given { r with taken := taken, nextNumber := next } where
  named := hnamed
  isName := h.isName
  readable := h.readable
  closed := h.closed
  inverse := h.inverse
  acyclic := h.acyclic
  befits hget := ⟨(h.befits hget).1, (h.befits hget).2⟩
  given := h.given

/-- Binding a name that is not in use. -/
theorem Neat.entered_bind (h : r.Neat given) (hb : r.Written given body)
    (htext : r.byText.get? body.text = none) (hnew : name ∉ Assoc.keys r.entries)
    (hname : IsName name) (hkind : r.IsKind name) (hunused : ¬ given name)
    (hbefits : r.Befits name body) :
    Entered given r body (some name) (.rule name) (r.bind name body) := by
  have hself : (r.bind name body).entries.get? name = some body := get?_bind_self
  exact
    { neat := h.bind hnew hname hkind hb.readable hb.known htext
        (fun ha => hunused (h.given_of_awaits hb.known ha)) hbefits
      grows := (grows_bind body hnew).weaken fun n b hb => ⟨hb.2, .inl (by rw [hb.1])⟩
      isRule := ⟨name, hname, rfl⟩
      known := namesIn_rule (.inl (Assoc.mem_keys_iff.mpr ⟨body, hself⟩))
      awaits := fun d => awaits_bind_self hnew
      denotes := .of_get? hself (.refl body)
      rule := .inr ⟨name, body, rfl, hself, rfl⟩ }

/-- **The rule for a body denotes it and awaits what it awaits**, whether it was there, is new, or
is a name itself. -/
theorem intern_neat (h : r.Neat given) (hb : r.Written given body) {preferred : Option String}
    (hpref : ∀ name ∈ preferred, name ∉ Assoc.keys r.entries ∧ IsName name ∧ r.IsKind name ∧
      ¬ given name ∧ r.Befits name body) :
    ∃ ref r', intern body preferred r = (ref, r') ∧ Entered given r body preferred ref r' := by
  have hblank : (body.text == Body.noValue.text) = false := by
    have hvis := hb.visible
    simp only [Body.isBlank, Bool.or_eq_false_iff] at hvis
    exact hvis.2
  unfold intern
  simp only [hblank, Bool.false_eq_true, if_false]
  split_ifs with hname
  · -- the text is a name, and the body mentions just this name
    have hisName : IsName body.text := by
      rcases Bool.or_eq_true_iff.mp hname with hc | ht
      · obtain ⟨found, hget⟩ := Assoc.mem_keys_iff.mp (Assoc.contains_iff.mp hc)
        exact h.isName hget
      · exact (h.named.taken _ (by simpa using ht)).1
    obtain ⟨hnames, hheads⟩ := Body.names_of_isName hb.readable hisName
    have hsame := Body.language_congr (Body.isSegment_rule hisName).readable hb.readable
      (Body.text_rule _)
    refine ⟨_, _, rfl, h, Grows.refl r, ⟨_, hisName, rfl⟩, namesIn_rule (hb.known _ ?_),
      fun d ha => ha.of_heads_subset ?_, .same hsame, .inl hisName⟩
    · rw [hnames]
      exact List.mem_cons_self
    · rw [hheads]
      exact List.Subset.refl _
  · split
    · next name hget =>
      obtain ⟨found, hf, ht⟩ := h.inverse.mp hget
      obtain ⟨-, hheads⟩ := Body.names_congr (h.readable hf) hb.readable ht
      refine ⟨_, _, rfl, h, Grows.refl r, ⟨_, h.isName hf, rfl⟩,
        namesIn_rule (.inl (Assoc.mem_keys_iff.mpr ⟨_, hf⟩)),
        fun d ha => (awaits_of_rule hf ha).of_heads_subset ?_,
        .of_get? hf (.same (Body.language_congr (h.readable hf) hb.readable ht)),
        .inr ⟨name, found, rfl, hf, ht⟩⟩
      rw [hheads]
      exact List.Subset.refl _
    · next hnone =>
      cases preferred with
      | some name =>
        obtain ⟨hnew, hn, hkind, hunused, hbefits⟩ := hpref name rfl
        exact ⟨_, _, rfl, h.entered_bind hb hnone hnew hn hkind hunused hbefits⟩
      | none =>
        have hnumbered : IsNumbered (numberedName r.nextNumber) := ⟨_, rfl⟩
        have hground : ¬ IsReservedName (numberedName r.nextNumber) := by
          rw [IsReservedName, leadWord_numberedName]
          simp [terminalLeads]
        have hentered := (h.retake h.named.countUp).entered_bind
          ⟨hb.readable, hb.visible, hb.known⟩ hnone h.named.numberedName_notMem
          (isName_numberedName _) (.inl ⟨_, Nat.lt_succ_self _, rfl⟩)
          (fun hg => h.given hg (.inr hnumbered)) (befits_of_not_reserved hground body)
        have hgrows := grows_bind (r := { r with nextNumber := r.nextNumber + 1 }) body
          h.named.numberedName_notMem
        exact ⟨_, _, rfl, hentered.neat, ⟨hgrows.keeps, fun hget => (hgrows.added hget).imp_right
          fun hb => ⟨hb.2, .inr ⟨rfl, _, hb.1⟩⟩, rfl⟩, hentered.isRule, hentered.known,
          hentered.awaits, hentered.denotes, hentered.rule⟩

/-! ## Other names of a body -/

/-- What is said of another name of a body: it denotes the body, has no rule yet, and awaits no
more. -/
structure IsAlias (given : String → Prop) (r : Rules) (body found : Body) : Prop where
  unbound : r.byText.get? found.text = none
  readable : found.Readable
  known : found.NamesIn (r.Knows given)
  awaits : ∀ d, r.Awaits found d → r.Awaits body d
  denotes : Denotes r.entries found body

/-- Following a body to another name of it, and that to another, ends: the names met so far, `seen`,
are distinct, since each leads to those before it. -/
theorem Neat.aliasOf_of_seen (h : r.Neat given) {tries : Nat} {seen : List String}
    (hread : body.Readable) (hknown : body.NamesIn (r.Knows given)) (hnodup : seen.Nodup)
    (hkeys : seen ⊆ Assoc.keys r.entries)
    (hseen : ∀ s ∈ seen, ∃ n ∈ body.heads, ReflTransGen r.Leads n s)
    (htries : r.size < tries + seen.length) : IsAlias given r body (r.aliasOf tries body) := by
  induction tries generalizing body seen with
  | zero =>
    have hle := (hnodup.subperm hkeys).length_le
    rw [Assoc.keys, List.length_map] at hle
    rw [size] at htries
    omega
  | succ tries ih =>
    rw [aliasOf]
    split
    · next name hget =>
      obtain ⟨found, hf, ht⟩ := h.inverse.mp hget
      obtain ⟨-, hheads⟩ := Body.names_congr (h.readable hf) hread ht
      have hisName := h.isName hf
      have hleads : ∀ n ∈ body.heads, r.Leads name n := fun n hn => ⟨found, hf, hheads ▸ hn⟩
      have hkey : name ∈ Assoc.keys r.entries := Assoc.mem_keys_iff.mpr ⟨found, hf⟩
      split_ifs with hself
      · -- a rule is not its own body
        have hheads := (Body.names_of_isName hread (hself ▸ hisName)).2
        exact absurd (.single (hleads name (by simp [hheads, hself]))) (h.acyclic name)
      · have hfresh : name ∉ seen := fun hmem => by
          obtain ⟨n, hn, hpath⟩ := hseen name hmem
          exact h.acyclic name (.head' (hleads n hn) hpath)
        have halias := ih (Body.isSegment_rule hisName).readable (namesIn_rule (.inl hkey))
          (List.nodup_cons.mpr ⟨hfresh, hnodup⟩) (List.cons_subset.mpr ⟨hkey, hkeys⟩)
          (List.forall_mem_cons.mpr ⟨⟨name, List.mem_cons_self, .refl⟩, fun s hs => by
            obtain ⟨n, hn, hpath⟩ := hseen s hs
            exact ⟨name, List.mem_cons_self, .head (hleads n hn) hpath⟩⟩)
          (by simp only [List.length_cons]; omega)
        refine ⟨halias.unbound, halias.readable, halias.known, fun d ha => ?_,
          halias.denotes.trans (.of_get? hf (.same (Body.language_congr (h.readable hf) hread ht)))⟩
        exact (awaits_of_rule hf (halias.awaits d ha)).of_heads_subset (by rw [hheads]; simp)
    · next hnone => exact ⟨hnone, hread, hknown, fun _ => id, .refl body⟩

/-- **Another name of a body has no rule yet and awaits no more than the body.** -/
theorem Neat.aliasOf (h : r.Neat given) (hread : body.Readable)
    (hknown : body.NamesIn (r.Knows given)) :
    IsAlias given r body (r.aliasOf (r.size + 1) body) :=
  h.aliasOf_of_seen hread hknown List.nodup_nil (List.nil_subset _)
    (fun _ hs => absurd hs List.not_mem_nil) (by simp)

end

end Rules

end SchemaGrammar
