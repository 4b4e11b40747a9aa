import SchemaGrammar.Proofs.EmissionState
import SchemaGrammar.Proofs.ShapeGraph

/-!
# The table of rules only grows

A name is bound once and for all. The names that are bound are numbers that have not been given,
reserved names that were looked up just before, and names of definitions. A name of a definition is
taken when its body is begun and is bound, if at all, when the body is finished; meanwhile other
rules are added, but none under a name that was taken before.

Nothing is asked of the shapes, and a step may fail: what it did until then remains.

## Main definitions

* `Rules.Appends`: further rules at the end, under names of a given kind.
* `Rules.Enlarges`, `Emitter.Enlarges`: a step that only appends.
* `Rules.Closed`, `Emitter.Closed`: what holds of whole steps if it holds of their parts.

## Main results

* `Emitter.enlarges_resolve`, `Emitter.enlarges_render`, `Emitter.enlarges_emit`: resolving,
  rendering and emitting a shape only append.
-/

namespace SchemaGrammar

open Grammar

/-- `r.Appends new r'`: the table `r'` is `r` with further rules at the end, under names that are as
`new` says. Names of definitions stay taken. -/
structure Rules.Appends (new : String → Prop) (r r' : Rules) : Prop where
  lead : r.entries <+: r'.entries
  added : ∀ name ∈ Assoc.keys r'.entries, name ∈ Assoc.keys r.entries ∨ new name
  taken : r.taken ⊆ r'.taken

section

variable {new new' : String → Prop} {r r' r'' : Rules}

theorem Rules.Appends.refl (r : Rules) : r.Appends new r :=
  ⟨List.prefix_refl _, fun _ => .inl, List.Subset.refl _⟩

theorem Rules.Appends.trans (h : r.Appends new r') (h' : r'.Appends new r'') :
    r.Appends new r'' where
  lead := h.lead.trans h'.lead
  added name hn := (h'.added name hn).elim (h.added name) .inr
  taken := List.Subset.trans h.taken h'.taken

theorem Rules.Appends.weaken (h : r.Appends new r') (hn : ∀ name, new name → new' name) :
    r.Appends new' r' :=
  ⟨h.lead, fun name hk => (h.added name hk).imp_right (hn name), h.taken⟩

theorem Rules.Appends.notMem_keys (h : r.Appends new r') {name : String}
    (hc : name ∉ Assoc.keys r.entries) (hn : ¬ new name) : name ∉ Assoc.keys r'.entries :=
  fun hk => (h.added name hk).elim hc hn

theorem Rules.Named.bind (h : r.Named) {name : String} (hkind : r.IsKind name) (body : Body) :
    (r.bind name body).Named where
  nodup := Assoc.nodup_keys_insert h.nodup
  kind hget := by
    rw [Rules.get?_bind] at hget
    split_ifs at hget with heq
    · exact heq ▸ hkind
    · exact h.kind hget
  taken := h.taken

theorem Rules.appends_bind {name : String} (hc : name ∉ Assoc.keys r.entries) (body : Body) :
    r.Appends (· = name) (r.bind name body) where
  lead := by
    rw [Rules.bind, Assoc.insert_of_notMem hc]
    exact List.prefix_append _ _
  added _ hn := (Assoc.mem_keys_insert.mp hn).symm
  taken := List.Subset.refl _

theorem Rules.Named.countUp (h : r.Named) :
    Rules.Named { r with nextNumber := r.nextNumber + 1 } where
  nodup := h.nodup
  kind hget := (h.kind hget).imp_left fun ⟨k, hk, heq⟩ => ⟨k, Nat.lt_succ_of_lt hk, heq⟩
  taken := h.taken

/-! ## Steps on the rules alone -/

/-- A step that keeps the names in order and only appends, under names that are as `new` says. -/
def Rules.Enlarges {α : Type} (new : String → Prop) (m : StateM Rules α) : Prop :=
  ∀ r : Rules, r.Named → (m r).2.Named ∧ r.Appends new (m r).2

namespace Rules

variable {α β : Type}

theorem Enlarges.pure (a : α) : Enlarges new (Pure.pure a : StateM Rules α) :=
  fun r h => ⟨h, .refl r⟩

theorem Enlarges.bind {m : StateM Rules α} {f : α → StateM Rules β} (hm : Enlarges new m)
    (hf : ∀ a, Enlarges new (f a)) : Enlarges new (m >>= f) := by
  intro r h
  obtain ⟨h₁, ha₁⟩ := hm r h
  obtain ⟨h₂, ha₂⟩ := hf (m r).1 _ h₁
  exact ⟨h₂, ha₁.trans ha₂⟩

theorem Enlarges.weaken {m : StateM Rules α} (hm : Enlarges new m)
    (hn : ∀ name, new name → new' name) : Enlarges new' m :=
  fun r h => ⟨(hm r h).1, (hm r h).2.weaken hn⟩

/-- Interning adds at most the rule that it is told to. -/
theorem appends_intern_some (h : r.Named) {name : String} (hc : name ∉ Assoc.keys r.entries)
    (hkind : r.IsKind name) (body : Body) :
    (intern body (some name) r).2.Named ∧ r.Appends (· = name) (intern body (some name) r).2 := by
  unfold intern
  dsimp only
  split_ifs
  · exact ⟨h, .refl r⟩
  · exact ⟨h, .refl r⟩
  · split
    · exact ⟨h, .refl r⟩
    · exact ⟨h.bind hkind body, appends_bind hc body⟩

/-- A name that is a number. -/
def IsNumbered (name : String) : Prop := ∃ k, name = numberedName k

theorem enlarges_intern_none (body : Body) : Enlarges IsNumbered (intern body none) := by
  intro r h
  unfold intern
  dsimp only
  split_ifs
  · exact ⟨h, .refl r⟩
  · exact ⟨h, .refl r⟩
  · split
    · exact ⟨h, .refl r⟩
    · have happends := appends_bind (r := { r with nextNumber := r.nextNumber + 1 })
        h.numberedName_notMem body
      exact ⟨h.countUp.bind (.inl ⟨_, Nat.lt_succ_self _, rfl⟩) body, happends.lead,
        fun name hn => (happends.added name hn).imp_right fun heq => ⟨_, heq⟩, List.Subset.refl _⟩

/-- A rule under a reserved name, which its body does not use. -/
theorem enlarges_reserved {name : String}
    (hkind : leadWord name ∈ terminalLeads ∨ leadWord name = "any".toList)
    {body : StateM Rules Body} (hb : Enlarges new body) (hname : ¬ new name) :
    Enlarges (fun n => n = name ∨ new n) (reserved name body) := by
  intro r h
  by_cases hc : name ∈ Assoc.keys r.entries
  · rw [reserved_of_mem hc]
    exact ⟨h, .refl r⟩
  · obtain ⟨h₁, ha₁⟩ := hb r h
    obtain ⟨h₂, ha₂⟩ := appends_intern_some h₁ (ha₁.notMem_keys hc hname)
      (hkind.elim (fun hl => .inr (.inl hl)) fun hl => .inr (.inr (.inl hl))) (body r).1
    rw [reserved_of_notMem hc (Prod.eta (body r)).symm]
    exact ⟨h₂, (ha₁.weaken fun _ => .inr).trans (ha₂.weaken fun _ => .inl)⟩

/-- A name that leaves and containers may bind. -/
def IsPlainName (name : String) : Prop := leadWord name ∈ terminalLeads ∨ IsNumbered name

theorem IsPlainName.leadWord_ne {name : String} (h : IsPlainName name) {word : List Char}
    (ht : word ∉ terminalLeads) (hr : word.head? ≠ some 'r') : leadWord name ≠ word := by
  rintro rfl
  rcases h with hlead | ⟨k, rfl⟩
  · exact ht hlead
  · rw [leadWord_numberedName] at hr
    exact hr rfl

theorem enlarges_terminalBody (t : Terminal) :
    Enlarges (fun n => t.isString = true ∧ n = "string-char-rule") (terminalBody t) := by
  cases t with
  | string bounds =>
    refine Enlarges.bind ?_ fun _ => .pure _
    have hchar : Enlarges (fun n => n = "string-char-rule" ∨ False) stringChar :=
      enlarges_reserved (.inl (by decide)) (.pure stringCharBody) id
    exact hchar.weaken fun n hn => ⟨rfl, hn.resolve_right id⟩
  | _ => exact .pure _

theorem enlarges_terminal (t : Terminal) : Enlarges IsPlainName (terminal t) := by
  have hchar : ∀ n, t.isString = true ∧ n = "string-char-rule" → IsPlainName n := fun n hn =>
    .inl (hn.2 ▸ by decide)
  unfold terminal
  split
  · exact (enlarges_terminalBody t).weaken hchar
  · next name hname =>
    have hlead := Terminal.leadWord_mem hname
    refine (enlarges_reserved (.inl hlead) (enlarges_terminalBody t) ?_).weaken ?_
    · rintro ⟨hs, rfl⟩
      cases t with
      | string bounds => exact bounds.ruleName_ne (Option.some.inj hname)
      | _ => cases hs
    · rintro n (rfl | hn)
      · exact .inl hlead
      · exact hchar n hn

theorem enlarges_intern (body : Body) : Enlarges IsPlainName (intern body none) :=
  (enlarges_intern_none body).weaken fun _ => .inr

/-! ## What containers are put together from -/

/-- A property of steps on the rules that is kept when they are put together, and that looking up a
leaf has. -/
structure Closed (K : ∀ {α : Type}, StateM Rules α → Prop) : Prop where
  pure : ∀ {α : Type} (a : α), K (Pure.pure a)
  bind : ∀ {α β : Type} {m : StateM Rules α} {f : α → StateM Rules β},
    K m → (∀ a, K (f a)) → K (m >>= f)
  terminal : ∀ t, K (terminal t)

section

variable {K : ∀ {α : Type}, StateM Rules α → Prop} (hK : Closed K)

include hK

theorem Closed.spacing (layout : Layout) : K (spacing layout) :=
  hK.bind (hK.terminal _) fun _ => hK.bind (hK.terminal _) fun _ => hK.pure _

theorem Closed.array (layout : Layout) (leading : List Body) (item : Body) (least : Nat)
    (most : Option Nat) : K (array layout leading item least most) :=
  hK.bind (hK.spacing layout) fun _ => hK.pure _

theorem Closed.object (layout : Layout) (members : List Member) (additional : Option Body) :
    K (object layout members additional) :=
  hK.bind (hK.spacing layout) fun _ => hK.pure _

theorem Closed.anyJsonBody (hintern : ∀ body, K (intern body none)) (layout : Layout)
    (nested : Body) : K (anyJsonBody layout nested) :=
  hK.bind (hK.terminal _) fun _ => hK.bind (hK.terminal _) fun _ =>
    hK.bind (hK.terminal _) fun _ => hK.bind (hK.terminal _) fun _ =>
    hK.bind (hK.array _ _ _ _ _) fun _ => hK.bind (hintern _) fun _ =>
    hK.bind (hK.object _ _ _) fun _ => hK.bind (hintern _) fun _ => hK.pure _

end

theorem closed_enlarges : Closed (Enlarges IsPlainName) where
  pure := .pure
  bind := .bind
  terminal := enlarges_terminal

theorem enlarges_anyJsonBody (layout : Layout) (nested : Body) :
    Enlarges IsPlainName (anyJsonBody layout nested) :=
  closed_enlarges.anyJsonBody enlarges_intern layout nested

/-- The name of any JSON value is not one that leaves and containers bind. -/
theorem not_isPlainName_anyJsonRule (layout : Layout) : ¬ IsPlainName layout.anyJsonRule := fun h =>
  h.leadWord_ne (by decide) (by decide) layout.leadWord_anyJsonRule

theorem enlarges_flatJson (layout : Layout) :
    Enlarges (fun n => n = lineName ∨ IsPlainName n) (flatJson layout) := by
  rw [flatJson_eq]
  exact enlarges_reserved (.inr (by decide)) (enlarges_anyJsonBody _ _)
    (not_isPlainName_anyJsonRule Shapes.lineLayout)

theorem enlarges_anyJson (layout : Layout) :
    Enlarges (fun n => leadWord n = "any".toList ∨ IsPlainName n) (anyJson layout) := by
  have hflat : Enlarges (fun n => n = lineName ∨ IsPlainName n) (flatJson layout) :=
    enlarges_flatJson layout
  unfold anyJson
  split_ifs with hl
  · have hbody := hflat.bind fun nested =>
      (enlarges_anyJsonBody layout nested).weaken fun n (hn : IsPlainName n) =>
        (Or.inr hn : n = lineName ∨ IsPlainName n)
    refine (enlarges_reserved (.inr layout.leadWord_anyJsonRule) hbody ?_).weaken ?_
    · rintro (heq | hplain)
      · exact lineName_ne_anyJsonRule hl heq
      · exact not_isPlainName_anyJsonRule layout hplain
    · rintro n (rfl | rfl | hn)
      · exact .inl layout.leadWord_anyJsonRule
      · exact .inl (by decide)
      · exact .inr hn
  · refine hflat.weaken ?_
    rintro n (rfl | hn)
    · exact .inl (by decide)
    · exact .inr hn

end Rules

end

/-! ## Steps of an emission -/

/-- A run of two steps stops with the first or goes on with the second. -/
theorem run_bind_cases {α β : Type} (m : EmitM α) (f : α → EmitM β) (e : Emitter) :
    (∃ error e₁, m.run e = (.error error, e₁) ∧ (m >>= f).run e = (.error error, e₁)) ∨
      ∃ a e₁, m.run e = (.ok a, e₁) ∧ (m >>= f).run e = (f a).run e₁ := by
  rcases hm : m.run e with ⟨error | a, e₁⟩
  · exact .inl ⟨error, e₁, rfl, run_bind_of_error hm⟩
  · exact .inr ⟨a, e₁, rfl, run_bind_of_ok hm⟩

namespace Emitter

variable {α β : Type} {e : Emitter}

/-- Whether it succeeds or fails, `m` keeps the names in order and only appends, under names that
are as `new` says. -/
def Adds (new : String → Prop) (e : Emitter) (m : EmitM α) : Prop :=
  (m.run e).2.rules.Named ∧ e.rules.Appends new (m.run e).2.rules

/-- A step that only appends, and under no name that was taken before. -/
def Enlarges (m : EmitM α) : Prop :=
  ∀ e : Emitter, e.rules.Named → Adds (· ∉ e.rules.taken) e m

theorem Adds.bind {new new' : String → Prop} {m : EmitM α} {f : α → EmitM β} (hm : Adds new e m)
    (hnew : ∀ n, new n → new' n)
    (hf : ∀ a e₁, e₁.rules.Named → e.rules.Appends new e₁.rules → Adds new' e₁ (f a)) :
    Adds new' e (m >>= f) := by
  obtain ⟨h₁, ha₁⟩ := hm
  rcases run_bind_cases m f e with ⟨error, e₁, hrun, hbind⟩ | ⟨a, e₁, hrun, hbind⟩
  · rw [hrun] at h₁ ha₁
    rw [Adds, hbind]
    exact ⟨h₁, ha₁.weaken hnew⟩
  · rw [hrun] at h₁ ha₁
    obtain ⟨h₂, ha₂⟩ := hf a e₁ h₁ ha₁
    rw [Adds, hbind]
    exact ⟨h₂, (ha₁.weaken hnew).trans ha₂⟩

theorem Adds.weaken {new new' : String → Prop} {m : EmitM α} (hm : Adds new e m)
    (hnew : ∀ n, new n → new' n) : Adds new' e m :=
  ⟨hm.1, hm.2.weaken hnew⟩

theorem Enlarges.pure (a : α) : Enlarges (Pure.pure a : EmitM α) := fun e h => ⟨h, .refl e.rules⟩

theorem enlarges_throw (error : CompileError) : Enlarges (throw error : EmitM α) :=
  fun e h => ⟨h, .refl e.rules⟩

theorem Enlarges.bind {m : EmitM α} {f : α → EmitM β} (hm : Enlarges m)
    (hf : ∀ a, Enlarges (f a)) : Enlarges (m >>= f) := by
  intro e h
  refine (hm e h).bind (fun _ => id) fun a e₁ h₁ ha => (hf a e₁ h₁).weaken fun n hn ht => ?_
  exact hn (ha.taken ht)

theorem enlarges_modify {f : Emitter → Emitter} (hf : ∀ e, (f e).rules = e.rules) :
    Enlarges (modify f : EmitM Unit) := by
  intro e h
  have hrun : ((modify f : EmitM Unit).run e).2 = f e := rfl
  rw [Adds, hrun, hf]
  exact ⟨h, .refl e.rules⟩

theorem enlarges_setResolution (id : ShapeId) (r : Resolution) : Enlarges (setResolution id r) :=
  enlarges_modify fun _ => rfl

theorem adds_onRules {new : String → Prop} {step : StateM Rules α}
    (h : (step e.rules).2.Named ∧ e.rules.Appends new (step e.rules).2) :
    Adds new e (onRules step) := by
  rw [Adds, run_onRules (Prod.eta (step e.rules)).symm]
  exact h

theorem enlarges_onRules {new : String → Prop} {step : StateM Rules α}
    (hs : Rules.Enlarges new step) (hnew : ∀ n, new n → ¬ IsDefinitionName n) :
    Enlarges (onRules step) := by
  intro e h
  refine (adds_onRules (hs e.rules h)).weaken fun n hn ht => ?_
  exact hnew n hn (h.taken n ht)

theorem not_isDefinitionName_of_isPlainName {n : String} (h : Rules.IsPlainName n) :
    ¬ IsDefinitionName n :=
  fun hdef => h.leadWord_ne (by decide) (by decide) hdef.2

theorem enlarges_plain {step : StateM Rules α} (hs : Rules.Enlarges Rules.IsPlainName step) :
    Enlarges (onRules step) :=
  enlarges_onRules hs fun _ => not_isDefinitionName_of_isPlainName

theorem enlarges_intern (body : Body) : Enlarges (onRules (Rules.intern body none)) :=
  enlarges_plain (Rules.enlarges_intern body)

theorem enlarges_terminal (t : Terminal) : Enlarges (onRules (Rules.terminal t)) :=
  enlarges_plain (Rules.enlarges_terminal t)

/-! ## What emission is put together from -/

/-- A property of steps that is kept when they are put together, and that rendering a leaf or a
container has. -/
structure Closed (K : ∀ {α : Type}, EmitM α → Prop) : Prop where
  pure : ∀ {α : Type} (a : α), K (Pure.pure a)
  bind : ∀ {α β : Type} {m : EmitM α} {f : α → EmitM β}, K m → (∀ a, K (f a)) → K (m >>= f)
  throw : ∀ {α : Type} (error : CompileError), K (throw error : EmitM α)
  terminal : ∀ t, K (onRules (Rules.terminal t))
  terminalBody : ∀ t, K (onRules (Rules.terminalBody t))
  array : ∀ layout leading item least most, K (onRules (Rules.array layout leading item least most))
  object : ∀ layout members additional, K (onRules (Rules.object layout members additional))

section

variable {K : ∀ {α : Type}, EmitM α → Prop} (hK : Closed K)

include hK

theorem Closed.mapM {γ : Type} {f : γ → EmitM α} {list : List γ} (hf : ∀ c ∈ list, K (f c)) :
    K (list.mapM f) := by
  induction list with
  | nil => exact hK.pure _
  | cons c list ih =>
    obtain ⟨hc, hlist⟩ := List.forall_mem_cons.mp hf
    rw [List.mapM_cons]
    exact hK.bind hc fun _ => hK.bind (ih hlist) fun _ => hK.pure _

variable {shapes : Shapes} {recur : ShapeId → EmitM Body} {id : ShapeId}

/-- Rendering is put together from resolving the parts. -/
theorem Closed.renderWith
    (hparts : ∀ {shape}, shapes.get? id = some shape → ∀ part ∈ shape.parts, K (recur part))
    (hself : shapes.isComposite id = false → K (recur id)) : K (renderWith shapes recur id) := by
  unfold Emitter.renderWith
  split
  · exact hK.throw _
  · exact hK.terminalBody _
  · next hget => exact hK.bind (hK.mapM (hparts hget)) fun _ => hK.pure _
  · next hget => exact hK.bind (hK.mapM (hparts hget)) fun _ => hK.pure _
  · next shape hget =>
    obtain ⟨hleading, hitems⟩ := List.forall_mem_append.mp (hparts hget)
    exact hK.bind (hK.mapM hleading) fun _ => hK.bind (hitems _ List.mem_cons_self) fun _ =>
      hK.array _ _ _ _ _
  · next shape hget =>
    obtain ⟨hproperties, hadditional⟩ := List.forall_mem_append.mp (hparts hget)
    have hmembers : K (shape.properties.mapM (renderProperty recur)) := hK.mapM fun p hp =>
      hK.bind (hproperties _ (List.mem_map_of_mem hp)) fun _ => hK.pure _
    refine hK.bind hmembers fun _ => hK.bind ?_ fun _ => hK.object _ _ _
    cases hadd : shape.additional with
    | none => exact hK.pure _
    | some part =>
      exact hK.bind (hK.bind (hK.terminal _) fun _ =>
        hK.bind (hadditional part (by simp [hadd])) fun _ => hK.pure _) fun _ => hK.pure _
  · next hget => exact hself (by simp [Shapes.isComposite, hget, Shape.isComposite])
  · next hget => exact hself (by simp [Shapes.isComposite, hget, Shape.isComposite])

/-- Resolving is put together from resolving the parts. -/
theorem Closed.resolvePending (hintern : ∀ body, K (onRules (Rules.intern body none)))
    (hany : ∀ layout, K (onRules (Rules.anyJson layout))) (hrec : ∀ id, K (recur id))
    (href : ∀ {definition target}, shapes.get? id = some (.reference definition (some target)) →
      K (resolveReference shapes recur id definition target)) :
    K (resolvePending shapes recur id) := by
  have hcontainer : K (do onRules (Rules.intern (← Emitter.renderWith shapes recur id) none)) :=
    hK.bind (hK.renderWith (fun _ part _ => hrec part) fun _ => hrec id) fun _ => hintern _
  have hchoice : ∀ members, K (resolveChoice recur members) := fun members => by
    refine hK.bind (hK.mapM fun id _ => hrec id) fun alternatives => ?_
    split_ifs
    · exact hK.pure _
    · exact hintern _
  unfold Emitter.resolvePending
  split
  · exact hK.throw _
  · exact hK.terminal _
  · exact hany _
  · exact hK.throw _
  · next hget => exact href hget
  · exact hchoice _
  · exact hchoice _
  · exact hcontainer
  · exact hcontainer

end

theorem closed_enlarges : Closed Enlarges where
  pure := .pure
  bind := .bind
  throw := enlarges_throw
  terminal := enlarges_terminal
  terminalBody t := by
    refine enlarges_onRules (Rules.enlarges_terminalBody t) ?_
    rintro n ⟨-, rfl⟩ hdef
    exact absurd hdef.2 (by decide)
  array _ _ _ _ _ := enlarges_plain (Rules.closed_enlarges.array _ _ _ _ _)
  object _ _ _ := enlarges_plain (Rules.closed_enlarges.object _ _ _)

theorem enlarges_anyJson (layout : Layout) : Enlarges (onRules (Rules.anyJson layout)) := by
  refine enlarges_onRules (Rules.enlarges_anyJson layout) ?_
  rintro n (hlead | hplain) hdef
  · rw [hdef.2] at hlead
    exact absurd hlead (by decide)
  · exact not_isDefinitionName_of_isPlainName hplain hdef

/-! ## Definitions -/

/-- Finishing a definition binds no other name than that of the definition. -/
theorem adds_finishReference (h : e.rules.Named) {id : ShapeId} {name : String}
    (htaken : name ∈ e.rules.taken) (hc : name ∉ Assoc.keys e.rules.entries) (body : Body) :
    Adds (· = name) e (finishReference id name body) := by
  have hkind : e.rules.IsKind name := .inr (.inr (.inr htaken))
  rw [finishReference, Adds, run_get_bind]
  cases e.resolution id with
  | inProgress other referenced =>
    cases referenced with
    | true => exact adds_onRules ⟨h.bind hkind _, Rules.appends_bind hc _⟩
    | false => exact adds_onRules (Rules.appends_intern_some h hc hkind body)
  | pending => exact adds_onRules (Rules.appends_intern_some h hc hkind body)
  | done reference => exact adds_onRules (Rules.appends_intern_some h hc hkind body)

section

variable {shapes : Shapes} {recur : ShapeId → EmitM Body} (hrec : ∀ id, Enlarges (recur id))

include hrec

theorem enlarges_renderWith (id : ShapeId) : Enlarges (renderWith shapes recur id) :=
  closed_enlarges.renderWith (fun _ part _ => hrec part) fun _ => hrec id

/-- A definition binds no name but one that was not taken before. -/
theorem enlarges_resolveReference (id : ShapeId) (definition : String) (target : ShapeId) :
    Enlarges (resolveReference shapes recur id definition target) := by
  intro e h
  obtain ⟨name, htake, hdef, htaken, hc⟩ := exists_takeName_eq e.rules definition
  set rules : Rules := { e.rules with taken := name :: e.rules.taken } with hrules
  set e₁ : Emitter := ({ e with rules } : Emitter) with he₁
  have h₁ : e₁.rules.Named :=
    ⟨h.nodup, fun hget => (h.kind hget).takeName name, List.forall_mem_cons.mpr ⟨hdef, h.taken⟩⟩
  have hbefore : e.rules.Appends (· ∉ e.rules.taken) e₁.rules :=
    ⟨List.prefix_refl _, fun _ => .inl, List.subset_cons_self _ _⟩
  have hweak : ∀ n, n ∉ e₁.rules.taken → n ∉ e.rules.taken := fun n hn ht => hn (hbefore.taken ht)
  -- the body is written after the name was taken, so it leaves the name alone
  have hfinish : ∀ {m : EmitM Body}, Enlarges m → ∀ e₂ : Emitter, e₂.rules.Named →
      e₁.rules.Appends (· ∉ e₁.rules.taken) e₂.rules →
      Adds (· ∉ e.rules.taken) e₂ (m >>= fun body => finishReference id name body) := by
    intro m hm e₂ h₂ ha₂
    have htaken₂ : e₁.rules.taken ⊆ e₂.rules.taken := ha₂.taken
    refine (hm e₂ h₂).bind (fun n hn ht => hn (htaken₂ (hbefore.taken ht)))
      fun body e₃ h₃ ha₃ => ?_
    have hmem : name ∈ e₁.rules.taken := List.mem_cons_self
    have hc₂ : name ∉ Assoc.keys e₂.rules.entries := ha₂.notMem_keys hc fun hn => hn hmem
    have hc₃ : name ∉ Assoc.keys e₃.rules.entries :=
      ha₃.notMem_keys hc₂ fun hn => hn (htaken₂ hmem)
    refine (adds_finishReference h₃ (ha₃.taken (htaken₂ hmem)) hc₃ body).weaken ?_
    rintro n rfl
    exact htaken
  have hrest : Adds (· ∉ e.rules.taken) e₁ (do
      setResolution id (.inProgress name false)
      if shapes.isComposite target then
        let reference ← finishReference id name (← renderWith shapes recur target)
        setResolution target (.done reference)
        return reference
      else finishReference id name (← recur target)) := by
    refine (enlarges_setResolution id _ e₁ h₁).bind hweak fun _ e₂ h₂ ha₂ => ?_
    split_ifs
    · rw [← bind_assoc]
      refine (hfinish (enlarges_renderWith hrec target) e₂ h₂ ha₂).bind (fun _ hn => hn)
        fun reference e₃ h₃ _ => ?_
      have hlast : Adds (fun _ => False) e₃ (do
          setResolution target (.done reference)
          return reference) := ⟨h₃, .refl _⟩
      exact hlast.weaken fun _ => False.elim
    · exact hfinish (hrec target) e₂ h₂ ha₂
  have hrun := run_onRules htake
  rcases run_bind_cases (onRules (Rules.takeName definition)) _ e with
    ⟨error, e', hfail, -⟩ | ⟨a, e', hok, hbind⟩
  · rw [hrun] at hfail
    cases hfail
  · rw [hrun] at hok
    cases hok
    obtain ⟨h₂, ha₂⟩ := hrest
    rw [Adds, resolveReference, hbind]
    exact ⟨h₂, hbefore.trans ha₂⟩

theorem enlarges_resolveWith (id : ShapeId) : Enlarges (resolveWith shapes recur id) := by
  intro e h
  rw [resolveWith, Adds, run_get_bind]
  cases e.resolution id with
  | done reference => exact Enlarges.pure reference e h
  | inProgress name _ => exact ((enlarges_setResolution id _).bind fun _ => .pure _) e h
  | pending =>
    have hpending : Enlarges (resolvePending shapes recur id) :=
      closed_enlarges.resolvePending enlarges_intern enlarges_anyJson hrec fun _ =>
        enlarges_resolveReference hrec id _ _
    exact (hpending.bind fun _ => (enlarges_setResolution id _).bind fun _ => .pure _) e h

end

theorem enlarges_resolveNested (shapes : Shapes) (fuel : Nat) (id : ShapeId) :
    Enlarges (resolveNested shapes fuel id) := by
  induction fuel generalizing id with
  | zero => exact enlarges_throw _
  | succ fuel ih => exact enlarges_resolveWith ih id

/-- **Resolving a shape only appends rules.** -/
theorem enlarges_resolve (shapes : Shapes) (id : ShapeId) : Enlarges (resolve shapes id) :=
  enlarges_resolveNested shapes _ id

/-- **Rendering a shape only appends rules.** -/
theorem enlarges_render (shapes : Shapes) (id : ShapeId) : Enlarges (render shapes id) :=
  enlarges_renderWith (enlarges_resolve shapes) id

/-- **Emitting a shape only appends rules.** -/
theorem enlarges_emit (shapes : Shapes) (id : ShapeId) : Enlarges (emit shapes id) :=
  (enlarges_render shapes id).bind fun _ => enlarges_modify fun _ => rfl

end Emitter

end SchemaGrammar
