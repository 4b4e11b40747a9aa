import SchemaGrammar.Proofs.RequestRuns

/-!
# Names of definitions never clash

The name of a rule is made of letters, digits and dashes, and the names of definitions are rewritten
to be so. Different names may come down to the same, and what is added to tell them apart may be
what another name ends in: `a b`, `a_b` and `a-b-2` come down to `def-a-b`, `def-a-b` and
`def-a-b-2`. So it is not the way of writing that keeps definitions apart, but the names in use, of
which there are more after each definition. Names in use stay so, whatever else is done to the
table; hence what holds of one name holds of all that are given on the way from one table to
another.

Nothing is asked of the table at the beginning, and nothing of the shapes.

## Main definitions

* `Rules.IsClear`: a name that no other rule has or is given.
* `Rules.Naming`: definitions were named on the way from one table to another, and nothing clashed.

## Main results

* `Rules.isNaming_takeName`: naming one definition.
* `Emitter.isNaming_step`, `Emitter.naming_answers`: one request, and a run of them.
* `definitionNames_never_clash`: the search for a name stops, and the names never clash.
-/

namespace SchemaGrammar

open Grammar

/-- A name that can be given to a definition: it is made of letters, digits and dashes of ASCII, it
is not in use, and it is none of the names that rules of other kinds are given. -/
structure Rules.IsClear (r : Rules) (name : String) : Prop where
  letters : ∀ c ∈ name.toList, c.isAlphanum = true ∨ c = '-'
  untaken : name ∉ r.taken
  unbound : name ∉ Assoc.keys r.entries
  unnumbered : ∀ n, name ≠ Rules.numberedName n
  noTerminal : ∀ t : Terminal, t.ruleName? ≠ some name
  noAnyJson : ∀ layout : Layout, name ≠ layout.anyJsonRule
  noRoot : name ≠ "root"

/-- `r.Naming r'`: on the way from `r` to `r'` definitions were named, all of them differently, and
with names that were clear. No name of a rule was lost. -/
structure Rules.Naming (r r' : Rules) : Prop where
  keys : Assoc.keys r.entries ⊆ Assoc.keys r'.entries
  names : ∃ names, r'.taken = names ++ r.taken ∧ names.Nodup ∧ ∀ name ∈ names, r.IsClear name

namespace Rules

variable {r r' r'' : Rules} {name : String}

/-- What is clear later was clear before. -/
theorem IsClear.before (h : r'.IsClear name) (htaken : r.taken ⊆ r'.taken)
    (hkeys : Assoc.keys r.entries ⊆ Assoc.keys r'.entries) : r.IsClear name :=
  { h with
    untaken := fun ht => h.untaken (htaken ht)
    unbound := fun hk => h.unbound (hkeys hk) }

/-- The first word tells names of definitions from all others. -/
theorem isClear_of_isDefinitionName (h : IsDefinitionName name) (htaken : name ∉ r.taken)
    (hkeys : name ∉ Assoc.keys r.entries) : r.IsClear name where
  letters c hc := by simpa [isNameChar] using h.1.2 c hc
  untaken := htaken
  unbound := hkeys
  unnumbered n heq := by
    have hlead := h.2
    rw [heq, leadWord_numberedName] at hlead
    simp at hlead
  noTerminal t ht := by
    have hlead := Terminal.leadWord_mem ht
    rw [h.2] at hlead
    exact absurd hlead (by decide)
  noAnyJson layout heq := by
    have hlead := h.2
    rw [heq, layout.leadWord_anyJsonRule] at hlead
    exact absurd hlead (by decide)
  noRoot heq := by
    have hlead := h.2
    rw [heq] at hlead
    exact absurd hlead (by decide)

theorem naming_of_taken_eq (hkeys : Assoc.keys r.entries ⊆ Assoc.keys r'.entries)
    (htaken : r'.taken = r.taken) : r.Naming r' :=
  ⟨hkeys, [], htaken, List.nodup_nil, List.forall_mem_nil _⟩

theorem Naming.refl (r : Rules) : r.Naming r := naming_of_taken_eq (List.Subset.refl _) rfl

/-- Names that are given later are clear of those that were given before. -/
theorem Naming.trans (h : r.Naming r') (h' : r'.Naming r'') : r.Naming r'' := by
  obtain ⟨hkeys, names, htaken, hnodup, hclear⟩ := h
  obtain ⟨hkeys', names', htaken', hnodup', hclear'⟩ := h'
  have hsub : r.taken ⊆ r'.taken := htaken ▸ List.subset_append_right names r.taken
  refine ⟨List.Subset.trans hkeys hkeys', names' ++ names, ?_, ?_, ?_⟩
  · rw [htaken', htaken, List.append_assoc]
  · refine List.nodup_append'.mpr ⟨hnodup', hnodup, ?_⟩
    intro name hname' hname
    refine (hclear' name hname').untaken ?_
    rw [htaken]
    exact List.mem_append_left _ hname
  · intro name hname
    rcases List.mem_append.mp hname with hname | hname
    · exact (hclear' name hname).before hsub hkeys
    · exact hclear name hname

/-! ## Steps on the rules alone -/

/-- A step in which nothing clashes, from whatever table it is taken. -/
def IsNaming {α : Type} (m : StateM Rules α) : Prop := ∀ r : Rules, r.Naming (m r).2

/-- **A definition is named.** -/
theorem isNaming_takeName (definition : String) : IsNaming (takeName definition) := by
  intro r
  obtain ⟨name, htake, hdef, htaken, hkeys⟩ := exists_takeName_eq r definition
  rw [htake]
  refine ⟨List.Subset.refl _, [name], rfl, List.nodup_singleton name, ?_⟩
  exact List.forall_mem_singleton.mpr (isClear_of_isDefinitionName hdef htaken hkeys)

section

variable {α β : Type}

theorem IsNaming.pure (a : α) : IsNaming (Pure.pure a : StateM Rules α) := fun r => .refl r

theorem IsNaming.bind {m : StateM Rules α} {f : α → StateM Rules β} (hm : IsNaming m)
    (hf : ∀ a, IsNaming (f a)) : IsNaming (m >>= f) :=
  fun r => (hm r).trans (hf (m r).1 (m r).2)

theorem isNaming_mapM {f : α → StateM Rules β} (hf : ∀ a, IsNaming (f a)) (list : List α) :
    IsNaming (list.mapM f) := by
  induction list with
  | nil => exact .pure []
  | cons a list ih =>
    rw [List.mapM_cons]
    exact (hf a).bind fun _ => ih.bind fun _ => .pure _

end

theorem naming_bind (r : Rules) (name : String) (body : Body) : r.Naming (r.bind name body) :=
  naming_of_taken_eq (fun _ hk => Assoc.mem_keys_insert.mpr (.inr hk)) rfl

theorem isNaming_intern (body : Body) (preferred : Option String) :
    IsNaming (intern body preferred) := by
  intro r
  unfold intern
  dsimp only
  split_ifs
  · exact .refl r
  · exact .refl r
  · split
    · exact .refl r
    · cases preferred with
      | some name => exact naming_bind r name body
      | none =>
        have hcount : r.Naming { r with nextNumber := r.nextNumber + 1 } :=
          naming_of_taken_eq (List.Subset.refl _) rfl
        exact hcount.trans (naming_bind _ _ body)

theorem isNaming_reserved (name : String) {body : StateM Rules Body} (hb : IsNaming body) :
    IsNaming (reserved name body) := by
  intro r
  by_cases hc : name ∈ Assoc.keys r.entries
  · rw [reserved_of_mem hc]
    exact .refl r
  · rw [reserved_of_notMem hc (Prod.eta (body r)).symm]
    exact (hb r).trans (isNaming_intern _ _ _)

theorem isNaming_terminalBody (t : Terminal) : IsNaming (terminalBody t) := by
  cases t with
  | string bounds => exact (isNaming_reserved _ (.pure stringCharBody)).bind fun _ => .pure _
  | _ => exact .pure _

theorem isNaming_terminal (t : Terminal) : IsNaming (terminal t) := by
  unfold terminal
  split
  · exact isNaming_terminalBody t
  · exact isNaming_reserved _ (isNaming_terminalBody t)

theorem closed_isNaming : Closed IsNaming where
  pure := .pure
  bind := .bind
  terminal := isNaming_terminal

theorem isNaming_anyJson (layout : Layout) : IsNaming (anyJson layout) := by
  have hbody : ∀ layout nested, IsNaming (anyJsonBody layout nested) :=
    closed_isNaming.anyJsonBody fun body => isNaming_intern body none
  have hflat : IsNaming (flatJson layout) := isNaming_reserved _ (hbody _ _)
  unfold anyJson
  split_ifs
  · exact isNaming_reserved _ (hflat.bind fun _ => hbody _ _)
  · exact hflat

end Rules

/-! ## Steps of an emission -/

namespace Emitter

variable {α β : Type}

/-- A step of an emission in which nothing clashes, whether it succeeds or fails. -/
def IsNaming (m : EmitM α) : Prop := ∀ e : Emitter, e.rules.Naming (m.run e).2.rules

theorem IsNaming.pure (a : α) : IsNaming (Pure.pure a : EmitM α) := fun e => .refl e.rules

theorem IsNaming.bind {m : EmitM α} {f : α → EmitM β} (hm : IsNaming m) (hf : ∀ a, IsNaming (f a)) :
    IsNaming (m >>= f) := by
  intro e
  have hfirst := hm e
  rcases run_bind_cases m f e with ⟨error, e₁, hrun, hbind⟩ | ⟨a, e₁, hrun, hbind⟩
  · rw [hrun] at hfirst
    rw [hbind]
    exact hfirst
  · rw [hrun] at hfirst
    rw [hbind]
    exact hfirst.trans (hf a e₁)

theorem isNaming_modify {f : Emitter → Emitter} (hf : ∀ e, (f e).rules = e.rules) :
    IsNaming (modify f : EmitM Unit) := by
  intro e
  have hrun : ((modify f : EmitM Unit).run e).2 = f e := rfl
  rw [hrun, hf]
  exact .refl e.rules

theorem isNaming_setResolution (id : ShapeId) (r : Resolution) : IsNaming (setResolution id r) :=
  isNaming_modify fun _ => rfl

theorem isNaming_onRules {step : StateM Rules α} (h : Rules.IsNaming step) :
    IsNaming (onRules step) := by
  intro e
  rw [run_onRules (Prod.eta (step e.rules)).symm]
  exact h e.rules

theorem closed_isNaming : Closed IsNaming where
  pure := .pure
  bind := .bind
  throw _ e := .refl e.rules
  terminal t := isNaming_onRules (Rules.isNaming_terminal t)
  terminalBody t := isNaming_onRules (Rules.isNaming_terminalBody t)
  array _ _ _ _ _ := isNaming_onRules (Rules.closed_isNaming.array _ _ _ _ _)
  object _ _ _ := isNaming_onRules (Rules.closed_isNaming.object _ _ _)

theorem isNaming_finishReference (id : ShapeId) (name : String) (body : Body) :
    IsNaming (finishReference id name body) := by
  intro e
  rw [finishReference, run_get_bind]
  cases e.resolution id with
  | inProgress other referenced =>
    cases referenced with
    | true => exact Rules.naming_bind e.rules name _
    | false => exact isNaming_onRules (Rules.isNaming_intern body (some name)) e
  | pending => exact isNaming_onRules (Rules.isNaming_intern body (some name)) e
  | done reference => exact isNaming_onRules (Rules.isNaming_intern body (some name)) e

section

variable {shapes : Shapes} {recur : ShapeId → EmitM Body} (hrec : ∀ id, IsNaming (recur id))

include hrec

theorem isNaming_renderWith (id : ShapeId) : IsNaming (renderWith shapes recur id) :=
  closed_isNaming.renderWith (fun _ part _ => hrec part) fun _ => hrec id

theorem isNaming_resolveReference (id : ShapeId) (definition : String) (target : ShapeId) :
    IsNaming (resolveReference shapes recur id definition target) := by
  refine (isNaming_onRules (Rules.isNaming_takeName definition)).bind fun name => ?_
  refine (isNaming_setResolution id _).bind fun _ => ?_
  split_ifs
  · exact (isNaming_renderWith hrec target).bind fun body =>
      (isNaming_finishReference id name body).bind fun reference =>
      (isNaming_setResolution target _).bind fun _ => .pure reference
  · exact (hrec target).bind fun body => isNaming_finishReference id name body

theorem isNaming_resolveWith (id : ShapeId) : IsNaming (resolveWith shapes recur id) := by
  have hpending : IsNaming (resolvePending shapes recur id) :=
    closed_isNaming.resolvePending (fun body => isNaming_onRules (Rules.isNaming_intern body none))
      (fun layout => isNaming_onRules (Rules.isNaming_anyJson layout)) hrec
      fun _ => isNaming_resolveReference hrec id _ _
  intro e
  rw [resolveWith, run_get_bind]
  cases e.resolution id with
  | done reference => exact .refl e.rules
  | inProgress name _ => exact (isNaming_setResolution id _).bind (fun _ => .pure _) e
  | pending => exact hpending.bind (fun _ => (isNaming_setResolution id _).bind fun _ => .pure _) e

end

theorem isNaming_resolve (shapes : Shapes) (id : ShapeId) : IsNaming (resolve shapes id) := by
  have hnested : ∀ fuel id, IsNaming (resolveNested shapes fuel id) := by
    intro fuel
    induction fuel with
    | zero => exact fun id => closed_isNaming.throw _
    | succ fuel ih => exact isNaming_resolveWith ih
  exact hnested _ id

theorem isNaming_render (shapes : Shapes) (id : ShapeId) : IsNaming (render shapes id) :=
  isNaming_renderWith (isNaming_resolve shapes) id

/-- **A request is answered.** -/
theorem isNaming_step (shapes : Shapes) (request : Request) : IsNaming (request.step shapes) := by
  cases request with
  | emit id => exact (isNaming_render shapes id).bind fun _ => isNaming_modify fun _ => rfl
  | resolve id => exact (isNaming_resolve shapes id).bind fun _ => .pure ()
  | render id => exact (isNaming_render shapes id).bind fun _ => .pure ()
  | terminal t => exact (isNaming_onRules (Rules.isNaming_terminal t)).bind fun _ => .pure ()
  | intern body => exact (isNaming_onRules (Rules.isNaming_intern body none)).bind fun _ => .pure ()

/-- **A run of requests is answered**, whatever the emitter was asked before. -/
theorem naming_answers (shapes : Shapes) (e : Emitter) (requests : List Request) :
    e.rules.Naming (requests.foldl (answer shapes) e).rules := by
  induction requests generalizing e with
  | nil => exact .refl e.rules
  | cons request requests ih => exact (isNaming_step shapes request e).trans (ih _)

end Emitter

/-! ## Definitions one after the other -/

/-- Every definition gets a name, and nothing but the names in use is changed. -/
theorem exists_mapM_takeName_eq (r : Rules) (definitions : List String) :
    ∃ names, definitions.mapM Rules.takeName r =
        (names, { r with taken := names.reverse ++ r.taken }) ∧
      names.length = definitions.length := by
  induction definitions generalizing r with
  | nil => exact ⟨[], rfl, rfl⟩
  | cons definition definitions ih =>
    obtain ⟨name, htake, -⟩ := exists_takeName_eq r definition
    obtain ⟨names, hnames, hlength⟩ := ih { r with taken := name :: r.taken }
    refine ⟨name :: names, ?_, by simp [hlength]⟩
    rw [List.mapM_cons, stateM_bind htake, stateM_bind hnames, List.reverse_cons,
      List.append_assoc]
    rfl

/-- **Names of definitions never clash.** From every table the search for a name stops, and at the
first candidate that is not in use. So each definition of a sequence gets a name; the names are all
different, and they are clear of what was in the table, of numbers and of reserved names. The same
holds of the names that an emitter gives in a run of requests, with other rules in between. -/
theorem definitionNames_never_clash :
    (∀ (r : Rules) (definition : String), ∃ n ≤ r.taken.length + r.entries.length + 1,
      r.StopsAt (Rules.definitionName definition) n ∧
      Rules.takeName definition r = (Rules.candidate (Rules.definitionName definition) n,
        { r with taken := Rules.candidate (Rules.definitionName definition) n :: r.taken })) ∧
    (∀ (r : Rules) (definitions : List String), ∃ names,
      definitions.mapM Rules.takeName r = (names, { r with taken := names.reverse ++ r.taken }) ∧
      names.length = definitions.length ∧ names.Nodup ∧ ∀ name ∈ names, r.IsClear name) ∧
    ∀ (shapes : Shapes) (e : Emitter) (requests : List Request), ∃ names,
      (requests.foldl (Emitter.answer shapes) e).rules.taken = names ++ e.rules.taken ∧
      names.Nodup ∧ ∀ name ∈ names, e.rules.IsClear name := by
  refine ⟨Rules.exists_stopsAt, fun r definitions => ?_, fun shapes e requests => ?_⟩
  · obtain ⟨names, hrun, hlength⟩ := exists_mapM_takeName_eq r definitions
    obtain ⟨-, given, htaken, hnodup, hclear⟩ :=
      Rules.isNaming_mapM Rules.isNaming_takeName definitions r
    rw [hrun] at htaken
    -- the names that were taken are those that were given, the last one first
    obtain rfl : names.reverse = given := List.append_cancel_right htaken
    exact ⟨names, hrun, hlength, List.nodup_reverse.mp hnodup, fun name hname =>
      hclear name (List.mem_reverse.mpr hname)⟩
  · exact (Emitter.naming_answers shapes e requests).names

/-- The second definition gets the name that the third one comes down to. -/
example : (["a b", "a_b", "a-b-2"].mapM Rules.takeName {}).1 =
    ["def-a-b", "def-a-b-2", "def-a-b-2-2"] := by decide

/-- A definition may have a name that ends as reserved names do. -/
example : isReserved (Rules.takeName "null-rule" {}).1 = true := by decide

end SchemaGrammar
