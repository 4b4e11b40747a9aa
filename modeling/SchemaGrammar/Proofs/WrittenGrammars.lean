import SchemaGrammar.Command.Run
import SchemaGrammar.Files.Tree
import SchemaGrammar.Proofs.RepeatedMembers

/-!
# Written grammars

The command that writes grammars first finds its inputs and compiles them all, which changes no
file, and only then writes. A grammar goes to a file that is named after the schema file, without
the directories around it. Two inputs from different directories may have one name; then the later
one is written over the earlier one. So what is left in the directory is, for each name, the
grammar of the last input with that name.

## Main definitions

* `Monad.Closed`: what holds of a whole run if it holds of each step.
* `Files.Tree.Keeps`: a step that leaves all files as they are.
* `Command.Yields`: what a part of a command comes to.

## Main results

* `Files.Tree.read_of_writes`: of the files written in a directory, the last of each name is left.
* `Command.run_leaves_last`: what a successful command leaves.
-/

namespace SchemaGrammar

/-! ## Steps that leave all files as they are -/

/-- What holds of steps that do nothing, and of two steps in a row if it holds of both. -/
structure Monad.Closed {n : Type → Type} [Monad n] (K : (α : Type) → n α → Prop) : Prop where
  pure {α : Type} (a : α) : K α (pure a)
  bind {α β : Type} {x : n α} {f : α → n β} : K α x → (∀ a, K β (f a)) → K β (x >>= f)

namespace Monad.Closed

variable {n : Type → Type} [Monad n] {K : (α : Type) → n α → Prop} {α β ε σ : Type}

theorem exceptT (h : Closed K) : Closed fun α (x : ExceptT ε n α) => K _ x.run where
  pure a := h.pure (Except.ok a)
  bind hx hf := h.bind hx (by
    rintro (e | a)
    · exact h.pure (Except.error e)
    · exact hf a)

theorem stateT (h : Closed K) : Closed fun α (x : StateT σ n α) => ∀ s, K _ (x.run s) where
  pure a s := h.pure (a, s)
  bind hx hf s := h.bind (hx s) fun result => hf result.1 result.2

theorem mapM [LawfulMonad n] (h : Closed K) {f : α → n β} (hf : ∀ a, K β (f a)) (list : List α) :
    K _ (list.mapM f) := by
  induction list with
  | nil => exact h.pure []
  | cons a list ih =>
    rw [List.mapM_cons]
    exact h.bind (hf a) fun b => h.bind ih fun bs => h.pure (b :: bs)

end Monad.Closed

namespace Files

namespace Tree

open Json.Value (bind_eq_ok_iff)

variable {α ε : Type}

/-- A step leaves all files as they are. -/
def Keeps (x : StateM Tree α) : Prop := ∀ t, (x.run t).2 = t

theorem closed_keeps : Monad.Closed fun α (x : StateM Tree α) => Keeps x where
  pure _ _ := rfl
  bind hx hf t := (hf _ _).trans (hx t)

/-- A search leaves all files as they are. -/
theorem closed_search : Monad.Closed fun α (x : Glob.SearchM (StateM Tree) α) => Keeps x.run :=
  closed_keeps.exceptT

open Glob

theorem keeps_sortedEntries (directory : String) : Keeps (sortedEntries access directory).run := by
  refine closed_search.bind (fun _ => rfl) fun result => ?_
  cases result <;> exact fun _ => rfl

/-- Searching for files changes none. -/
theorem keeps_pathsFrom (directoriesOnly : Bool) (fuel : Nat) (components : List Component)
    (here : Found) : Keeps (pathsFrom access directoriesOnly fuel components here).run := by
  have hfound : ∀ path, Keeps (found access path).run := fun _ _ => rfl
  induction fuel generalizing components here with
  | zero => exact closed_search.pure []
  | succ fuel ih =>
    cases components with
    | nil => exact closed_search.pure _
    | cons component rest =>
      cases component with
      | name text =>
        have hrest : ∀ isThere : Bool, Keeps (ExceptT.run (if isThere then
            found access (entryPath here.path text) >>= pathsFrom access directoriesOnly fuel rest
            else pure [])) := by
          intro isThere
          split_ifs
          · exact closed_search.bind (hfound _) fun next => ih rest next
          · exact closed_search.pure []
        rw [pathsFrom]
        split_ifs
        · exact closed_search.bind (closed_search.pure _) hrest
        · exact closed_search.bind (fun _ => rfl) fun _ =>
            closed_search.bind (closed_search.pure _) hrest
      | wild tokens =>
        rw [pathsFrom]
        split_ifs
        · exact closed_search.pure []
        · refine closed_search.bind (keeps_sortedEntries _) fun entries => ?_
          refine closed_search.bind (closed_search.mapM (fun _ => hfound _) _) fun dots => ?_
          exact closed_search.bind (closed_search.mapM (fun _ => ih rest _) _) fun lists =>
            closed_search.pure lists.flatten
      | directories =>
        rw [pathsFrom]
        split_ifs
        · exact closed_search.pure []
        · refine closed_search.bind (keeps_sortedEntries _) fun entries => ?_
          refine closed_search.bind (closed_search.mapM (fun entry => ?_) _) fun lists =>
            closed_search.pure lists.flatten
          have hbelow := fun itself => closed_search.bind
            (ih (.directories :: rest.dropWhile (· == .directories)) (entryFound here.path entry))
            fun below => closed_search.pure (itself ++ below)
          dsimp only
          split
          · exact closed_search.bind (closed_search.pure _) hbelow
          · split_ifs
            · exact closed_search.bind (ih _ _) hbelow
            · exact closed_search.bind (closed_search.pure []) hbelow

theorem keeps_paths (p : Glob.Pattern) : Keeps (p.paths access).run :=
  closed_search.bind (fun _ => rfl) fun _ => keeps_pathsFrom _ _ _ _

/-! ## Names in a directory -/

/-- A name that is not a way to say where one is or to step up, and has no slash in it. -/
structure IsEntryName (name : String) : Prop where
  notEmpty : name ≠ ""
  notHere : name ≠ "."
  notAbove : name ≠ ".."
  noSlash : '/' ∉ name.toList

theorem pieces_join (directory : String) {name : String} (h : '/' ∉ name.toList) :
    ∃ outer, pieces (join directory name) = outer ++ [name] := by
  have hname : name.toList.splitOn '/' = [name.toList] := List.splitOn_eq_singleton h
  have hslash : ∀ (text : String) (outer : List Char),
      text.toList = outer ++ '/' :: name.toList → ∃ outer, pieces text = outer ++ [name] := by
    intro text outer htext
    refine ⟨(outer.splitOn '/').map String.ofList, ?_⟩
    rw [pieces, htext, List.splitOn_append_cons_self, hname]
    simp
  unfold join
  split_ifs with hlast
  · simp only [Bool.or_eq_true, beq_iff_eq] at hlast
    rcases hlast with hempty | hlast
    · refine ⟨[], ?_⟩
      rw [String.isEmpty_iff.mp hempty, String.empty_append, pieces, hname]
      simp
    · obtain ⟨outer, houter⟩ := List.getLast?_eq_some_iff.mp hlast
      exact hslash _ outer (by simp [houter])
  · exact hslash _ directory.toList (by simp)

/-- Only a directory can be gone through, and then no file decides where a step leads. -/
theorem step_eq_ok {t : Tree} {l l' : Location} {piece : String} (h : t.step l piece = .ok l') :
    t.isDirectory l = true ∧
      l' = if piece.isEmpty || piece == "." then l
        else if piece == ".." then l.dropLast else l ++ [piece] := by
  unfold step kindAt? at h
  cases hdirectory : t.isDirectory l with
  | false => cases hcontent : t.content? l <;> simp [hdirectory, hcontent] at h
  | true =>
    simp only [hdirectory, if_true] at h
    split_ifs at h ⊢ <;> simp_all

theorem step_put {t : Tree} {l l' : Location} {piece : String} (h : t.step l piece = .ok l')
    {place : Location} {content : ByteArray} : (t.put place content).step l piece = .ok l' := by
  have hdirectory : (t.put place content).isDirectory l = true := (step_eq_ok h).1
  have hbefore : t.isDirectory l = true := hdirectory
  unfold step kindAt? at h ⊢
  rw [hdirectory]
  rwa [hbefore] at h

/-- The path of an entry leads to a location with the name of the entry. -/
theorem getLast?_locate_join {t : Tree} {directory name : String} {l : Location}
    (hname : IsEntryName name) (h : t.locate (join directory name) = .ok l) :
    l.getLast? = some name := by
  obtain ⟨outer, houter⟩ := pieces_join directory hname.noSlash
  unfold locate walk at h
  split_ifs at h
  rw [houter, List.foldlM_append] at h
  obtain ⟨above, -, hstep⟩ := bind_eq_ok_iff.mp h
  obtain ⟨l₁, hlast, ⟨⟩⟩ := bind_eq_ok_iff.mp hstep
  obtain ⟨-, rfl⟩ := step_eq_ok hlast
  simp [hname.notEmpty, hname.notHere, hname.notAbove]

/-- What leads somewhere does so whatever is put in a file. -/
theorem locate_put {t : Tree} {path : String} {l : Location} (h : t.locate path = .ok l)
    (place : Location) (content : ByteArray) : (t.put place content).locate path = .ok l := by
  have hfold : ∀ (pieces : List String) (l₁ : Location), pieces.foldlM t.step l₁ = .ok l →
      pieces.foldlM (t.put place content).step l₁ = .ok l := by
    intro pieces
    induction pieces with
    | nil => exact fun _ h => h
    | cons piece pieces ih =>
      intro l₁ h
      obtain ⟨l₂, hstep, hrest⟩ := bind_eq_ok_iff.mp h
      rw [List.foldlM_cons, step_put hstep]
      exact ih l₂ hrest
  unfold locate walk at h ⊢
  split_ifs at h ⊢
  exact hfold _ _ h

/-! ## Files that are written -/

/-- A path leads to a file with the given content. -/
def HasFile (t : Tree) (path : String) (content : ByteArray) : Prop :=
  ∃ l, t.locate path = .ok l ∧ t.isDirectory l = false ∧ t.content? l = some content

theorem HasFile.read {t : Tree} {path text : String} (h : t.HasFile path text.toUTF8) :
    t.read path = .ok text := by
  obtain ⟨l, hlocate, hdirectory, hcontent⟩ := h
  have htext : String.fromUTF8? text.toUTF8 = some text := dif_pos text.isValidUTF8
  have hlookup : t.lookup path = .ok (l, .file) :=
    bind_eq_ok_iff.mpr ⟨l, hlocate, by simp [kindAt?, hdirectory, hcontent]; rfl⟩
  refine bind_eq_ok_iff.mpr ⟨_, hlookup, ?_⟩
  dsimp only
  rw [hcontent, Option.bind_some, htext]
  rfl

theorem write_eq_ok {t t' : Tree} {path text : String} (h : t.write path text = .ok t') :
    ∃ l, t.locate path = .ok l ∧ t.isDirectory l = false ∧ t' = t.put l text.toUTF8 := by
  obtain ⟨l, hlocate, hput⟩ := bind_eq_ok_iff.mp h
  refine ⟨l, hlocate, ?_⟩
  cases hdirectory : t.isDirectory l with
  | true => simp [kindAt?, hdirectory] at hput
  | false =>
    refine ⟨rfl, ?_⟩
    cases hcontent : t.content? l <;> simp only [kindAt?, hdirectory, hcontent] at hput <;>
      cases hput <;> rfl

theorem content?_put_self (t : Tree) (l : Location) (content : ByteArray) :
    (t.put l content).content? l = some content := by
  have hnone : (t.files.filter fun f => f.1 != l).find? (fun f => f.1 == l) = none := by
    simp [List.find?_eq_none]
  simp [content?, put, List.find?_append, hnone]

theorem content?_put_of_ne (t : Tree) {l l' : Location} (h : l' ≠ l) (content : ByteArray) :
    (t.put l content).content? l' = t.content? l' := by
  have hother : (fun f : Location × ByteArray => decide ((f.1 != l) = true ∧ (f.1 == l') = true)) =
      fun f => f.1 == l' := by
    funext f
    by_cases hf : f.1 = l' <;> simp [hf, h]
  rw [content?, content?, put, List.find?_append, List.find?_filter, hother]
  simp [Ne.symm h]

/-- The files that a list of entries is written to, one after the other. -/
def writes (t : Tree) (directory : String) (entries : List (String × String)) :
    Except Problem Tree :=
  entries.foldlM (fun t e => t.write (join directory e.1) e.2) t

theorem HasFile.write {t t' : Tree} {directory name other text : String} {content : ByteArray}
    (h : t.HasFile (join directory name) content) (hname : IsEntryName name)
    (hother : IsEntryName other) (hne : other ≠ name)
    (hwrite : t.write (join directory other) text = .ok t') :
    t'.HasFile (join directory name) content := by
  obtain ⟨l, hlocate, hdirectory, hcontent⟩ := h
  obtain ⟨l', hlocate', -, rfl⟩ := write_eq_ok hwrite
  refine ⟨l, locate_put hlocate _ _, hdirectory, ?_⟩
  rw [content?_put_of_ne, hcontent]
  rintro rfl
  have hlast := getLast?_locate_join hname hlocate
  rw [getLast?_locate_join hother hlocate', Option.some.injEq] at hlast
  exact hne hlast

/-- Of the entries written to a directory, the last one of each name is left. -/
theorem read_of_writes {t t' : Tree} {directory name text : String}
    {before after : List (String × String)} (hname : IsEntryName name)
    (hafter : ∀ e ∈ after, IsEntryName e.1 ∧ e.1 ≠ name)
    (h : t.writes directory (before ++ (name, text) :: after) = .ok t') :
    t'.read (join directory name) = .ok text := by
  rw [writes, List.foldlM_append] at h
  obtain ⟨t₁, -, hrest⟩ := bind_eq_ok_iff.mp h
  obtain ⟨t₂, hwrite, hlater⟩ := bind_eq_ok_iff.mp hrest
  have hfile : t₂.HasFile (join directory name) text.toUTF8 := by
    obtain ⟨l, hlocate, hdirectory, rfl⟩ := write_eq_ok hwrite
    exact ⟨l, locate_put hlocate _ _, hdirectory, content?_put_self _ _ _⟩
  clear h hrest hwrite
  refine HasFile.read ?_
  induction after generalizing t₂ with
  | nil =>
    cases hlater
    exact hfile
  | cons e after ih =>
    obtain ⟨⟨hentry, hne⟩, hafter⟩ := List.forall_mem_cons.mp hafter
    obtain ⟨t₃, hwrite, hlater⟩ := bind_eq_ok_iff.mp hlater
    exact ih hafter t₃ hlater (hfile.write hname hentry hne hwrite)

end Tree

end Files

namespace Command

open Files (Tree)

/-! ## Parts of commands -/

variable {α β ε : Type}

/-- A part of a command, with the files of a tree. -/
abbrev TreeSession := Session (StateM Files.Tree)

/-- How a part of a command ends: with its result, what was printed, and the files. -/
def finish (x : TreeSession α) (printed : Printed) (t : Files.Tree) :
    (Except CommandError α × Printed) × Files.Tree := (x.run.run printed).run t

/-- A part of a command comes to a result, and leaves all files as they are. -/
def Yields (t : Files.Tree) (x : TreeSession α) (a : α) : Prop :=
  ∃ printed printed', finish x printed t = ((.ok a, printed'), t)

/-- A part of a command leaves all files as they are. -/
def KeepsFiles (x : TreeSession α) : Prop := ∀ printed, Tree.Keeps (x.run.run printed)

theorem closed_keepsFiles : Monad.Closed fun α (x : TreeSession α) => KeepsFiles x :=
  Tree.closed_keeps.stateT.exceptT

theorem finish_bind {x : TreeSession α} {f : α → TreeSession β} {printed printed' : Printed}
    {t t' : Files.Tree} {b : β} (h : finish (x >>= f) printed t = ((.ok b, printed'), t')) :
    ∃ a printed₁ t₁, finish x printed t = ((.ok a, printed₁), t₁) ∧
      finish (f a) printed₁ t₁ = ((.ok b, printed'), t') := by
  -- what comes after a part depends on how the part ends, and on nothing else
  have hbind : finish (x >>= f) printed t =
      (fun r : (Except CommandError α × Printed) × Files.Tree =>
        finish (ExceptT.mk (ExceptT.bindCont f r.1.1)) r.1.2 r.2) (finish x printed t) := rfl
  rw [hbind] at h
  rcases hx : finish x printed t with ⟨⟨e | a, printed₁⟩, t₁⟩
  · rw [hx] at h
    cases h
  · rw [hx] at h
    exact ⟨a, printed₁, t₁, rfl, h⟩

theorem keepsFiles_orFail (failure : ε → CommandError) {action : StateM Files.Tree (Except ε α)}
    (h : Tree.Keeps action) : KeepsFiles (orFail failure action) := by
  refine closed_keepsFiles.bind (fun printed t => h t) fun result => ?_
  cases result with
  | ok a => exact closed_keepsFiles.pure a
  | error e => exact fun _ _ => rfl

theorem KeepsFiles.yields {x : TreeSession α} (h : KeepsFiles x) {printed printed' : Printed}
    {t t' : Files.Tree} {a : α} (hx : finish x printed t = ((.ok a, printed'), t')) :
    t' = t ∧ Yields t x a := by
  obtain rfl : t' = t := (congrArg Prod.snd hx).symm.trans (h printed t)
  exact ⟨rfl, printed, printed', hx⟩

/-! ## The inputs -/

theorem keepsFiles_readSource (path : String) : KeepsFiles (readSource Tree.access path) :=
  keepsFiles_orFail _ fun _ => rfl

theorem keepsFiles_okOrFail (failure : ε → CommandError) (result : Except ε α) :
    KeepsFiles (okOrFail failure result) :=
  keepsFiles_orFail _ fun _ => rfl

/-- Finding the inputs changes no file. -/
theorem keepsFiles_paths (i : Inputs) : KeepsFiles (i.paths Tree.access) := by
  refine closed_keepsFiles.bind (closed_keepsFiles.mapM (fun input => ?_) _) fun lists =>
    closed_keepsFiles.pure lists.flatten
  unfold inputPaths
  split_ifs
  · exact closed_keepsFiles.pure [input]
  · refine closed_keepsFiles.bind (keepsFiles_okOrFail _ _) fun pattern => ?_
    refine closed_keepsFiles.bind (keepsFiles_orFail _ (Tree.keeps_paths pattern)) fun paths => ?_
    split_ifs
    · exact fun _ _ => rfl
    · exact closed_keepsFiles.pure paths

theorem keepsFiles_readDefinitions (i : Inputs) : KeepsFiles (i.readDefinitions Tree.access) := by
  unfold Inputs.readDefinitions
  split
  · exact closed_keepsFiles.pure []
  · exact closed_keepsFiles.bind (keepsFiles_readSource _) fun _ => keepsFiles_okOrFail _ _

theorem keepsFiles_compileFile (definitions : Assoc Schema) (options : Options) (path : String) :
    KeepsFiles (compileFile Tree.access definitions options path) :=
  closed_keepsFiles.bind (closed_keepsFiles.bind (keepsFiles_readSource path) fun _ =>
    keepsFiles_okOrFail _ _) fun _ =>
    closed_keepsFiles.bind (keepsFiles_okOrFail _ _) fun grammar =>
      closed_keepsFiles.pure (path, grammar)

/-- Compiling all inputs gives each with the grammar that it has on its own. -/
theorem compiled_of_mapM {definitions : Assoc Schema} {options : Options}
    {printed printed' : Printed} {t t' : Files.Tree} {paths : List String}
    {grammars : List (String × String)}
    (h : finish (paths.mapM (compileFile Tree.access definitions options)) printed t =
      ((.ok grammars, printed'), t')) :
    grammars.map Prod.fst = paths ∧
      ∀ e ∈ grammars, Yields t (compileFile Tree.access definitions options e.1) e := by
  induction paths generalizing printed grammars with
  | nil =>
    cases h
    simp
  | cons path paths ih =>
    rw [List.mapM_cons] at h
    obtain ⟨e, printed₁, t₁, hcompile, hrest⟩ := finish_bind h
    obtain ⟨rfl, hyields⟩ := (keepsFiles_compileFile definitions options path).yields hcompile
    obtain rfl : e.1 = path := by
      obtain ⟨_, _, _, -, hgrammar⟩ := finish_bind hcompile
      obtain ⟨_, _, _, -, hpair⟩ := finish_bind hgrammar
      cases hpair
      rfl
    obtain ⟨others, printed₂, t₂, hothers, hend⟩ := finish_bind hrest
    cases hend
    obtain ⟨hpaths, hall⟩ := ih hothers
    exact ⟨by rw [List.map_cons, hpaths], List.forall_mem_cons.mpr ⟨hyields, hall⟩⟩

/-! ## The names of grammar files -/

theorem slash_notMem_pieces {path piece : String} (h : piece ∈ Files.pieces path) :
    '/' ∉ piece.toList := by
  have hpart : ∀ (text part : List Char), part ∈ text.splitOn '/' → '/' ∉ part := by
    intro text
    induction text with
    | nil => simp
    | cons c text ih =>
      intro part hpart
      rw [List.splitOn_cons_eq_if_modifyHead] at hpart
      split_ifs at hpart with hc
      · rcases List.mem_cons.mp hpart with rfl | hpart
        · simp
        · exact ih part hpart
      · obtain ⟨first, others, hsplit⟩ := List.exists_cons_of_ne_nil
          (List.splitOn_ne_nil '/' text)
        rw [hsplit, List.modifyHead_cons] at hpart
        rcases List.mem_cons.mp hpart with rfl | hpart
        · have hne : '/' ≠ c := fun heq => hc (beq_iff_eq.mpr heq.symm)
          simp [hne, ih first (hsplit ▸ List.mem_cons_self)]
        · exact ih part (hsplit ▸ List.mem_cons_of_mem first hpart)
  obtain ⟨part, hmem, rfl⟩ := List.mem_map.mp h
  simpa using hpart _ part hmem

theorem slash_notMem_withoutExtension {name : String} (h : '/' ∉ name.toList) :
    '/' ∉ (Files.withoutExtension name).toList := by
  unfold Files.withoutExtension
  dsimp only
  split_ifs
  · exact h
  · rw [String.toList_ofList, List.mem_reverse]
    intro hmem
    have hdrop := (List.dropWhile_suffix _).subset (List.mem_of_mem_drop hmem)
    exact h (List.mem_reverse.mp hdrop)

theorem mem_pieces_of_fileName? {path name : String} (h : Files.fileName? path = some name) :
    name ∈ Files.pieces path := by
  have hlast : name ∈ Files.components path := by
    unfold Files.fileName? at h
    split at h
    · cases h
    · cases h
    · cases h
    · cases h
      exact List.mem_of_getLast? ‹_›
  unfold Files.components at hlast
  cases hpieces : Files.pieces path with
  | nil => simp [hpieces] at hlast
  | cons first rest =>
    rw [hpieces] at hlast
    rcases List.mem_append.mp hlast with hfirst | hrest
    · split_ifs at hfirst
      · cases hfirst
      · exact List.mem_cons.mpr (.inl (List.mem_singleton.mp hfirst))
    · exact List.mem_cons_of_mem first (List.mem_of_mem_filter hrest)

/-- A grammar file has a name that can stand in any directory. -/
theorem isEntryName_grammarFileName (path : String) :
    Tree.IsEntryName (grammarFileName path) := by
  have hlong : ∀ name : String, name.length < 5 → grammarFileName path ≠ name := by
    rintro name hname rfl
    rw [grammarFileName, String.length_append] at hname
    exact absurd hname (Nat.not_lt.mpr (Nat.le_add_left 5 _))
  refine ⟨hlong _ (by decide), hlong _ (by decide), hlong _ (by decide), ?_⟩
  rw [grammarFileName, String.toList_append, List.mem_append, not_or]
  refine ⟨?_, by decide⟩
  cases hname : Files.fileName? path with
  | none => decide
  | some name =>
    exact slash_notMem_withoutExtension (slash_notMem_pieces (mem_pieces_of_fileName? hname))

/-! ## Writing -/

theorem finish_orFail {failure : ε → CommandError} {action : StateM Files.Tree (Except ε α)}
    {printed printed' : Printed} {t t' : Files.Tree} {a : α}
    (h : finish (orFail failure action) printed t = ((.ok a, printed'), t')) :
    action.run t = (.ok a, t') := by
  obtain ⟨result, printed₁, t₁, hresult, hend⟩ := finish_bind h
  have hrun : result = (action.run t).1 ∧ t₁ = (action.run t).2 := by
    cases hresult
    exact ⟨rfl, rfl⟩
  cases result with
  | error e => cases hend
  | ok b =>
    cases hend
    exact Prod.ext hrun.1.symm hrun.2.symm

theorem eq_ok_of_change {f : Files.Tree → Except Files.Problem Files.Tree} {t t' : Files.Tree}
    (h : (Tree.change f).run t = (.ok (), t')) : f t = .ok t' := by
  have hrun : (Tree.change f).run t = Tree.change f t := rfl
  rw [hrun, Tree.change] at h
  cases hf : f t <;> rw [hf] at h <;> cases h
  rfl

/-- What the loop over the grammars writes. -/
theorem writes_of_writeGrammars {setting : Setting (StateM Files.Tree)}
    (hfiles : setting.files = Tree.access) {directory : String}
    {grammars : List (String × String)} {printed printed' : Printed} {t t' : Files.Tree}
    (h : finish (writeGrammars setting directory grammars) printed t = ((.ok (), printed'), t')) :
    ∃ t₁ : Files.Tree,
      t₁.writes directory (grammars.map fun e => (grammarFileName e.1, e.2)) = .ok t' := by
  obtain ⟨_, printed₁, t₁, -, hloop⟩ := finish_bind h
  refine ⟨t₁, ?_⟩
  clear h
  induction grammars generalizing printed₁ t₁ with
  | nil => 
    cases hloop
    rfl
  | cons e grammars ih =>
    rw [List.forIn_cons, bind_assoc] at hloop
    obtain ⟨next, printed₂, t₂, hnext, hrest⟩ := finish_bind hloop
    obtain ⟨_, printed₃, t₃, hwrite, hremark⟩ := finish_bind hnext
    have hwritten := finish_orFail hwrite
    rw [hfiles] at hwritten
    cases hremark
    rw [List.map_cons, Tree.writes, List.foldlM_cons, eq_ok_of_change hwritten]
    exact ih _ _ hrest

/-- **What a successful command leaves.** The inputs and the shared definitions are those that are
there before the command, and each input that has no later one of its name has a file in the
directory, which holds the grammar that is compiled from it. -/
theorem run_leaves_last {c : GrammarCommand} {colored : Bool} {directory : String}
    {printed : Printed} {t t' : Files.Tree} (hdirectory : c.outDirectory = some directory)
    (h : finish (c.run ⟨Tree.access, colored⟩) {} t = ((.ok (), printed), t')) :
    ∃ paths definitions, Yields t (c.inputs.paths Tree.access) paths ∧
      Yields t (c.inputs.readDefinitions Tree.access) definitions ∧
      ∀ before path after, paths = before ++ path :: after →
        (∀ later ∈ after, grammarFileName later ≠ grammarFileName path) →
        ∃ grammar, Yields t (compileFile Tree.access definitions c.options path) (path, grammar) ∧
          t'.read (Files.join directory (grammarFileName path)) = .ok grammar := by
  obtain ⟨paths, printed₁, t₁, hpaths, hrest⟩ := finish_bind h
  obtain ⟨rfl, hpaths⟩ := (keepsFiles_paths c.inputs).yields hpaths
  obtain ⟨definitions, printed₂, t₂, hdefinitions, hcompile⟩ := finish_bind hrest
  obtain ⟨rfl, hdefinitions⟩ := (keepsFiles_readDefinitions c.inputs).yields hdefinitions
  obtain ⟨grammars, printed₃, t₃, hgrammars, hwrite⟩ := finish_bind hcompile
  obtain ⟨rfl, hcompiled⟩ := compiled_of_mapM hgrammars
  rw [hdirectory] at hwrite
  obtain ⟨t₄, hwrites⟩ := writes_of_writeGrammars rfl hwrite
  refine ⟨_, definitions, hpaths, hdefinitions, fun before path after hsplit hlater => ?_⟩
  obtain ⟨first, last, rfl, -, hlast⟩ := List.map_eq_append_iff.mp hsplit
  obtain ⟨⟨_, grammar⟩, others, rfl, rfl, rfl⟩ := List.map_eq_cons_iff.mp hlast
  refine ⟨grammar, hcompiled _ (by simp), ?_⟩
  rw [List.map_append, List.map_cons] at hwrites
  refine Tree.read_of_writes (isEntryName_grammarFileName _) ?_ hwrites
  simp only [List.mem_map, forall_exists_index, and_imp, forall_apply_eq_imp_iff₂] at hlater ⊢
  exact fun e he => ⟨isEntryName_grammarFileName _, hlater e he⟩

theorem finish_eq_ok {x : TreeSession α} {printed : Printed} {t : Files.Tree} {a : α}
    (h : (finish x printed t).1.1.toOption = some a) :
    finish x printed t = ((.ok a, (finish x printed t).1.2), (finish x printed t).2) := by
  rcases hx : finish x printed t with ⟨⟨e | b, printed'⟩, t'⟩
  · simp [hx, Except.toOption] at h
  · simp_all [Except.toOption]

/-- Two schemas in files of one name, in different directories. -/
def namesakes : Files.Tree := Tree.ofFiles ["work"]
  [("a/x.json", "\x7b\"type\": \"null\"\x7d".toUTF8),
    ("b/x.json", "\x7b\"type\": \"boolean\"\x7d".toUTF8)]

/-- The command that writes the grammars of both to one directory. -/
def namesakesCommand : GrammarCommand :=
  ⟨⟨["a/x.json", "b/x.json"], none⟩, true, 0, 0, some "out", false⟩

/-- The command succeeds. -/
theorem run_leaves_last_namesakes :
    ∃ paths definitions, Yields namesakes (namesakesCommand.inputs.paths Tree.access) paths ∧
      Yields namesakes (namesakesCommand.inputs.readDefinitions Tree.access) definitions ∧
      ∀ before path after, paths = before ++ path :: after →
        (∀ later ∈ after, grammarFileName later ≠ grammarFileName path) →
        ∃ grammar, Yields namesakes
            (compileFile Tree.access definitions namesakesCommand.options path) (path, grammar) ∧
          (finish (namesakesCommand.run ⟨Tree.access, false⟩) {} namesakes).2.read
            (Files.join "out" (grammarFileName path)) = .ok grammar :=
  run_leaves_last rfl (finish_eq_ok (by decide +kernel))

/-- But the grammar of the first schema is in none of the files that it leaves. -/
theorem namesake_is_lost :
    ∃ printed t', finish (namesakesCommand.run ⟨Tree.access, false⟩) {} namesakes =
        ((.ok (), printed), t') ∧
      Yields namesakes (namesakesCommand.inputs.paths Tree.access) ["a/x.json", "b/x.json"] ∧
      Yields namesakes (compileFile Tree.access [] namesakesCommand.options "a/x.json")
        ("a/x.json", "root ::= \"null\"") ∧
      ∀ file ∈ t'.files, file.2 ≠ "root ::= \"null\"".toUTF8 := by
  have hpaths : (finish (namesakesCommand.inputs.paths Tree.access) {} namesakes).1.1.toOption =
      some ["a/x.json", "b/x.json"] := by decide +kernel
  have hgrammar : (finish (compileFile Tree.access [] namesakesCommand.options "a/x.json") {}
      namesakes).1.1.toOption = some ("a/x.json", "root ::= \"null\"") := by decide +kernel
  exact ⟨_, _, finish_eq_ok (by decide +kernel),
    ((keepsFiles_paths _).yields (finish_eq_ok hpaths)).2,
    ((keepsFiles_compileFile _ _ _).yields (finish_eq_ok hgrammar)).2, by decide +kernel⟩

end Command

end SchemaGrammar
