import SchemaGrammar.Proofs.ReadingInContext

/-!
# Reading an object from the texts of its members

A text that is made of members, with blanks and commas between them and brackets around, is read
member by member: it can be read exactly if the text of every name is that of a string and the text
of every value can be read by itself, with a bracket to spare. The value is the object of these
members, where a repeated name keeps its last value.

## Main definitions

* `Json.MembersText`, `Json.ObjectText`: texts that are made of the texts of members.
* `Json.Reader.ReadsAs`, `Json.Reader.Refuses`: what a reader makes of a text that stands anywhere.

## Main results

* `Json.Reader.members_of_membersText`, `Json.Reader.exists_entries_of_members`: the loop over
  members succeeds exactly if all names and values can be read.
* `Json.parseNested_objectText_iff`: the value of the whole in terms of those of the parts.
-/

namespace SchemaGrammar

namespace Json

/-! ## Texts of members -/

/-- The texts of members, each its name and its value, up to where the bracket closes. The flag says
that no member came before. -/
inductive MembersText : Bool → List (String × String) → List Char → Prop
  | done {first : Bool} {b : List Char} (hb : IsBlank b) : MembersText first [] b
  | first {name value : String} {more : List (String × String)} {b g w : List Char}
      (hb : IsBlank b) (hn : IsString name.toList) (hg : IsBlank g)
      (hw : MembersText false more w) :
      MembersText true ((name, value) :: more)
        (b ++ (name.toList ++ ':' :: (g ++ (value.toList ++ w))))
  | next {name value : String} {more : List (String × String)} {b b' g w : List Char}
      (hb : IsBlank b) (hb' : IsBlank b') (hn : IsString name.toList) (hg : IsBlank g)
      (hw : MembersText false more w) :
      MembersText false ((name, value) :: more)
        (b ++ ',' :: (b' ++ (name.toList ++ ':' :: (g ++ (value.toList ++ w)))))

/-- The text of an object that is made of the texts of members, and blanks after it. -/
inductive ObjectText : List (String × String) → List Char → Prop
  | intro {members : List (String × String)} {w b : List Char} (hw : MembersText true members w)
      (hb : IsBlank b) : ObjectText members ('\x7b' :: (w ++ '\x7d' :: b))

theorem MembersText.length_le {first : Bool} {members : List (String × String)} {w : List Char}
    (h : MembersText first members w) : members.length ≤ w.length := by
  induction h with
  | done hb => simp
  | first hb hn hg hw ih =>
    simp only [List.length_cons, List.length_append]
    omega
  | next hb hb' hn hg hw ih =>
    simp only [List.length_cons, List.length_append]
    omega

theorem endsNumber_of_isBlank {b w : List Char} (hb : IsBlank b) {c : Char}
    (hc : c = ',' ∨ c = '\x7d') : EndsNumber (b ++ c :: w) := by
  cases b with
  | nil =>
    rintro _ ⟨⟩
    rcases hc with rfl | rfl <;> decide
  | cons d b =>
    rintro _ ⟨⟩
    have hd := hb d List.mem_cons_self
    simp only [List.mem_cons, List.not_mem_nil, or_false] at hd
    rcases hd with rfl | rfl | rfl | rfl <;> decide

theorem MembersText.endsNumber {members : List (String × String)} {w : List Char}
    (h : MembersText false members w) (rest : List Char) : EndsNumber (w ++ '\x7d' :: rest) := by
  cases h with
  | done hb => exact endsNumber_of_isBlank hb (.inr rfl)
  | next hb hb' hn hg hw =>
    rw [List.append_assoc]
    exact endsNumber_of_isBlank hb (.inl rfl)

namespace Reader

variable {α : Type}

/-! ## The parts of a member -/

theorem colon_of_at {c : Cursor} {w : List Char} (h : c.At (':' :: w)) :
    ∃ offset, colon c = .ok ((), ⟨w, offset⟩) := by
  obtain ⟨offset, hpeek⟩ := peekToken_of_at h (by decide)
  exact ⟨_, bind_of_ok hpeek⟩

theorem closeObject_of_at {c : Cursor} {w : List Char} (h : c.At ('\x7d' :: w)) :
    ∃ offset, closeObject c = .ok ((), ⟨w, offset⟩) := by
  obtain ⟨offset, hpeek⟩ := peekToken_of_at h (by decide)
  exact ⟨_, bind_of_ok hpeek⟩

theorem nextKey_of_end {c : Cursor} {w : List Char} (h : c.At ('\x7d' :: w)) (first : Bool) :
    ∃ offset, nextKey first c = .ok (none, ⟨'\x7d' :: w, offset⟩) := by
  obtain ⟨offset, hpeek⟩ := peekToken_of_at h (by decide)
  exact ⟨offset, within_eq_ok.mpr (bind_of_ok hpeek)⟩

/-- The next name is read from a text. -/
def NextKeyFrom (first : Bool) (c : Cursor) (w : List Char) : Prop :=
  ∃ offset, ∀ r after, nextKey first c = .ok (r, after) ↔
    ∃ name, string ⟨w, offset⟩ = .ok (name, after) ∧ r = some name

theorem string_bind_pure_eq_ok {c after : Cursor} {r : Option String} :
    (string >>= fun name => Pure.pure (some name)) c = .ok (r, after) ↔
      ∃ name, string c = .ok (name, after) ∧ r = some name := by
  rw [bind_eq_ok]
  constructor
  · rintro ⟨name, _, hname, ⟨⟩⟩
    exact ⟨name, hname, rfl⟩
  · rintro ⟨name, hname, rfl⟩
    exact ⟨name, after, hname, rfl⟩

theorem nextKeyFrom_first {c : Cursor} {w : List Char} (h : c.At ('"' :: w)) :
    NextKeyFrom true c ('"' :: w) := by
  obtain ⟨offset, hpeek⟩ := peekToken_of_at h (by decide)
  refine ⟨offset, fun r after => ?_⟩
  rw [nextKey, within_eq_ok, bind_of_ok hpeek]
  exact string_bind_pure_eq_ok

theorem nextKeyFrom_next {c : Cursor} {b w : List Char} (hb : IsBlank b)
    (h : c.At (',' :: (b ++ '"' :: w))) : NextKeyFrom false c ('"' :: w) := by
  obtain ⟨offset, hpeek⟩ := peekToken_of_at h (by decide)
  have hat : Cursor.At ⟨b ++ '"' :: w, offset + 1⟩ ('"' :: w) := ⟨b, hb, rfl⟩
  obtain ⟨offset', hpeek'⟩ := peekToken_of_at hat (by decide)
  have heat : eat ⟨',' :: (b ++ '"' :: w), offset⟩ = .ok ((), ⟨b ++ '"' :: w, offset + 1⟩) := rfl
  refine ⟨offset', fun r after => ?_⟩
  rw [nextKey, within_eq_ok, bind_of_ok hpeek]
  show (eat >>= _) _ = _ ↔ _
  rw [bind_of_ok heat, bind_of_ok hpeek']
  exact string_bind_pure_eq_ok

/-- The reader gives `a` wherever the text stands. -/
def ReadsAs (read : Reader α) (text : List Char) (a : α) : Prop :=
  ∀ ext c, EndsNumber ext → c.At (text ++ ext) → ∃ after, read c = .ok (a, after) ∧ after.At ext

/-- The reader gives nothing wherever the text stands. -/
def Refuses (read : Reader α) (text : List Char) : Prop :=
  ∀ ext c, EndsNumber ext → c.At (text ++ ext) → ∀ a after, read c ≠ .ok (a, after)

/-! ## The loop over members -/

section

variable {read : Reader α} {first : Bool} {c : Cursor} {text g value w : List Char}

theorem members_of_nextKey {name : String} {between : Cursor}
    (h : nextKey first c = .ok (some name, between)) (step : Char) (steps : Steps)
    (done : List (String × α)) :
    members read (step :: steps) first done c =
      (colon >>= fun _ => within (.key name) read >>= fun entry =>
        members read steps false ((name, entry) :: done)) between :=
  bind_of_ok h

/-- One round of the loop. -/
theorem members_of_names (hkey : NextKeyFrom first c (text ++ ':' :: (g ++ (value ++ w))))
    (hg : IsBlank g) (hw : EndsNumber w) {name : String} (hname : Names text name) {a : α}
    (hread : ReadsAs read value a) (step : Char) (steps : Steps) (done : List (String × α)) :
    ∃ after, members read (step :: steps) first done c =
      members read steps false ((name, a) :: done) after ∧ after.At w := by
  obtain ⟨offset, hkey⟩ := hkey
  obtain ⟨offset', hstring⟩ := hname.string_append (':' :: (g ++ (value ++ w))) offset
  obtain ⟨offset'', hcolon⟩ := colon_of_at (Cursor.at_rest ⟨':' :: (g ++ (value ++ w)), offset'⟩)
  have hat : Cursor.At ⟨g ++ (value ++ w), offset''⟩ (value ++ w) := ⟨g, hg, rfl⟩
  obtain ⟨after, hvalue, hafter⟩ := hread w _ hw hat
  refine ⟨after, ?_, hafter⟩
  rw [members_of_nextKey ((hkey _ _).mpr ⟨name, hstring, rfl⟩), bind_of_ok hcolon,
    bind_of_ok (within_eq_ok.mpr hvalue)]

theorem names_of_members (hkey : NextKeyFrom first c (text ++ ':' :: (g ++ (value ++ w))))
    (hg : IsBlank g) (hw : EndsNumber w) (hs : IsString text)
    (hread : (∃ a, ReadsAs read value a) ∨ Refuses read value) {steps : Steps}
    {done entries : List (String × α)} {after : Cursor}
    (hrun : members read steps first done c = .ok (entries, after)) :
    (∃ name, Names text name) ∧ ∃ a, ReadsAs read value a := by
  cases steps with
  | nil => cases hrun
  | cons step steps =>
    obtain ⟨offset, hkey⟩ := hkey
    obtain ⟨r, ⟨_, offset'⟩, hnext, -⟩ := bind_eq_ok.mp hrun
    obtain ⟨name, hstring, rfl⟩ := (hkey _ _).mp hnext
    obtain ⟨hname, rfl⟩ := hs.names_of_string hstring
    refine ⟨⟨name, hname⟩, hread.resolve_right fun hrefuses => ?_⟩
    obtain ⟨offset'', hcolon⟩ := colon_of_at (Cursor.at_rest ⟨':' :: (g ++ (value ++ w)), offset'⟩)
    rw [members_of_nextKey hnext, bind_of_ok hcolon] at hrun
    obtain ⟨a, after', hvalue, -⟩ := bind_eq_ok.mp hrun
    exact hrefuses w _ hw ⟨g, hg, rfl⟩ a after' (within_eq_ok.mp hvalue)

end

/-- A member that is read as an entry. -/
def EntryReads (read : Reader α) (m : String × String) (entry : String × α) : Prop :=
  Names m.1.toList entry.1 ∧ ReadsAs read m.2.toList entry.2

theorem exists_eq_quote_cons {text : List Char} (h : IsString text) : ∃ u, text = '"' :: u := by
  obtain ⟨hunits⟩ := h
  exact ⟨_, rfl⟩

/-- Where the loop stands, the next name is read from the first member that is left. -/
theorem nextKeyFrom_of_membersText {first : Bool} {name value : String}
    {more : List (String × String)} {w rest : List Char} {c : Cursor}
    (h : MembersText first ((name, value) :: more) w) (hc : c.At (w ++ '\x7d' :: rest)) :
    IsString name.toList ∧ ∃ g w', IsBlank g ∧ MembersText false more w' ∧
      NextKeyFrom first c
        (name.toList ++ ':' :: (g ++ (value.toList ++ (w' ++ '\x7d' :: rest)))) := by
  cases h with
  | @first _ _ _ b g w hb hn hg hw =>
    refine ⟨hn, g, w, hg, hw, ?_⟩
    obtain ⟨u, hu⟩ := exists_eq_quote_cons hn
    have hc : c.At (b ++
        (name.toList ++ ':' :: (g ++ (value.toList ++ (w ++ '\x7d' :: rest))))) := by
      simpa using hc
    rw [hu] at hc ⊢
    exact nextKeyFrom_first (hc.blank hb)
  | @next _ _ _ b b' g w hb hb' hn hg hw =>
    refine ⟨hn, g, w, hg, hw, ?_⟩
    obtain ⟨u, hu⟩ := exists_eq_quote_cons hn
    have hc : c.At (b ++ ',' :: (b' ++
        (name.toList ++ ':' :: (g ++ (value.toList ++ (w ++ '\x7d' :: rest)))))) := by
      simpa using hc
    rw [hu] at hc ⊢
    exact nextKeyFrom_next hb' (hc.blank hb)

section

variable {read : Reader α} {first : Bool} {texts : List (String × String)} {w rest : List Char}
  {c : Cursor}

/-- **The loop gives the members of a text**, if all of them can be read. -/
theorem members_of_membersText (h : MembersText first texts w) (hc : c.At (w ++ '\x7d' :: rest))
    {entries : List (String × α)} (hentries : List.Forall₂ (EntryReads read) texts entries)
    {steps : Steps} (hsteps : texts.length < steps.length) (done : List (String × α)) :
    ∃ after, members read steps first done c = .ok (done.reverse ++ entries, after) ∧
      after.At ('\x7d' :: rest) := by
  induction hentries generalizing first w c steps done with
  | nil =>
    obtain ⟨step, steps, rfl⟩ := List.exists_cons_of_length_pos hsteps
    obtain @⟨_, _, hb⟩ := h
    obtain ⟨offset, hend⟩ := nextKey_of_end (hc.blank hb) first
    refine ⟨⟨'\x7d' :: rest, offset⟩, ?_, Cursor.at_rest _⟩
    rw [members, bind_of_ok hend, List.append_nil]
    rfl
  | @cons m entry texts entries hentry _ ih =>
    obtain ⟨step, steps, rfl⟩ := List.exists_cons_of_length_pos (Nat.zero_lt_of_lt hsteps)
    obtain ⟨-, g, w', hg, hw', hkey⟩ := nextKeyFrom_of_membersText h hc
    obtain ⟨between, hstep, hat⟩ := members_of_names hkey hg (hw'.endsNumber rest) hentry.1 hentry.2
      step steps done
    obtain ⟨after, hrun, hafter⟩ := ih hw' hat (by simpa using hsteps) ((entry.1, entry.2) :: done)
    exact ⟨after, by rw [hstep, hrun]; simp, hafter⟩

/-- **If the loop succeeds, all members can be read.** -/
theorem exists_entries_of_members (h : MembersText first texts w) (hc : c.At (w ++ '\x7d' :: rest))
    (hread : ∀ m ∈ texts, (∃ a, ReadsAs read m.2.toList a) ∨ Refuses read m.2.toList)
    {steps : Steps} {done result : List (String × α)} {after : Cursor}
    (hrun : members read steps first done c = .ok (result, after)) :
    ∃ entries, List.Forall₂ (EntryReads read) texts entries := by
  induction texts generalizing first w c steps done with
  | nil => exact ⟨[], .nil⟩
  | cons m texts ih =>
    obtain ⟨hm, htexts⟩ := List.forall_mem_cons.mp hread
    obtain ⟨hs, g, w', hg, hw', hkey⟩ := nextKeyFrom_of_membersText h hc
    obtain ⟨⟨name, hname⟩, a, ha⟩ := names_of_members hkey hg (hw'.endsNumber rest) hs hm hrun
    cases steps with
    | nil => cases hrun
    | cons step steps =>
      obtain ⟨between, hstep, hat⟩ := members_of_names hkey hg (hw'.endsNumber rest) hname ha
        step steps done
      obtain ⟨entries, hentries⟩ := ih hw' hat htexts (hstep ▸ hrun)
      exact ⟨(name, a) :: entries, .cons ⟨hname, ha⟩ hentries⟩

end

/-! ## The object -/

section

variable {read : Reader α} {texts : List (String × String)} {text : List Char}

theorem object_of_objectText (h : ObjectText texts text) {entries : List (String × α)}
    (hentries : List.Forall₂ (EntryReads read) texts entries) (offset : Nat) :
    ∃ after, object read ⟨text, offset⟩ = .ok (entries, after) ∧ IsBlank after.rest := by
  obtain @⟨w, b, hw, hb⟩ := h
  have hsteps : texts.length < (' ' :: ' ' :: (w ++ '\x7d' :: b)).length := by
    have := hw.length_le
    simp only [List.length_cons, List.length_append]
    omega
  obtain ⟨between, hrun, hat⟩ := members_of_membersText hw
    (Cursor.at_rest ⟨w ++ '\x7d' :: b, offset + 1⟩) hentries hsteps []
  obtain ⟨offset', hclose⟩ := closeObject_of_at hat
  refine ⟨⟨b, offset'⟩, ?_, hb⟩
  have heat : eat ⟨'\x7b' :: (w ++ '\x7d' :: b), offset⟩ =
      .ok ((), ⟨w ++ '\x7d' :: b, offset + 1⟩) := rfl
  have hleft : stepsLeft ⟨w ++ '\x7d' :: b, offset + 1⟩ =
      .ok (' ' :: ' ' :: (w ++ '\x7d' :: b), ⟨w ++ '\x7d' :: b, offset + 1⟩) := rfl
  rw [object, bind_of_ok heat, bind_of_ok hleft, bind_of_ok hrun, bind_of_ok hclose]
  rfl

theorem exists_entries_of_object (h : ObjectText texts text)
    (hread : ∀ m ∈ texts, (∃ a, ReadsAs read m.2.toList a) ∨ Refuses read m.2.toList)
    {offset : Nat} {result : List (String × α)} {after : Cursor}
    (hrun : object read ⟨text, offset⟩ = .ok (result, after)) :
    List.Forall₂ (EntryReads read) texts result := by
  have hobject := h
  obtain @⟨w, b, hw, hb⟩ := h
  obtain ⟨_, _, ⟨⟩, hafter⟩ := bind_eq_ok.mp hrun
  obtain ⟨_, _, ⟨⟩, hafter⟩ := bind_eq_ok.mp hafter
  obtain ⟨_, _, hmembers, -⟩ := bind_eq_ok.mp hafter
  obtain ⟨entries, hentries⟩ := exists_entries_of_members hw (Cursor.at_rest _) hread hmembers
  obtain ⟨after', hrun', -⟩ := object_of_objectText hobject hentries offset
  rw [hrun] at hrun'
  cases hrun'
  exact hentries

end

/-! ## Values -/

theorem peekToken_bind_blank_append {f : Option Char → Reader α} {b : List Char} (hb : IsBlank b)
    (w : List Char) (offset : Nat) :
    (peekToken >>= f) ⟨b ++ w, offset⟩ = (peekToken >>= f) ⟨w, offset + b.length⟩ := by
  have hpeek : peekToken ⟨b ++ w, offset⟩ = peekToken ⟨w, offset + b.length⟩ := by
    unfold peekToken
    rw [skipBlanks_blank_append hb]
  show (peekToken _ >>= fun p => f p.1 p.2) = (peekToken _ >>= fun p => f p.1 p.2)
  rw [hpeek]

theorem value_blank_append {b : List Char} (hb : IsBlank b) (depth : Nat) (w : List Char)
    (offset : Nat) : value depth ⟨b ++ w, offset⟩ = value depth ⟨w, offset + b.length⟩ := by
  unfold value
  exact peekToken_bind_blank_append hb w offset

theorem readsAs_value_iff {depth : Nat} {text : List Char} {v : Value} :
    ReadsAs (value depth) text v ↔
      ∃ after, value depth ⟨text, 0⟩ = .ok (v, after) ∧ IsBlank after.rest := by
  constructor
  · intro h
    obtain ⟨after, hrun, b, hb, hafter⟩ := h [] ⟨text, 0⟩ nofun ⟨[], isBlank_nil, by simp⟩
    exact ⟨after, hrun, by simpa [hafter] using hb⟩
  · rintro ⟨after, hrun, hblank⟩ ext ⟨_, offset⟩ hext ⟨b, hb, rfl⟩
    rw [value_blank_append hb]
    obtain ⟨next, hrun'⟩ := value_append hext hrun (offset + b.length)
    exact ⟨_, hrun', after.rest, hblank, rfl⟩

theorem ReadsAs.unique {depth : Nat} {text : List Char} {v v' : Value}
    (h : ReadsAs (value depth) text v) (h' : ReadsAs (value depth) text v') : v = v' := by
  obtain ⟨after, hrun, -⟩ := readsAs_value_iff.mp h
  obtain ⟨after', hrun', -⟩ := readsAs_value_iff.mp h'
  rw [hrun] at hrun'
  cases hrun'
  rfl

theorem readsAs_iff_depth {depth depth' : Nat} (hle : depth ≤ depth') {text : List Char}
    {v : Value} :
    ReadsAs (value depth) text v ↔ ReadsAs (value depth') text v ∧ v.depth ≤ depth := by
  rw [readsAs_value_iff, readsAs_value_iff]
  simp only [restricts_value hle _ _ _]
  constructor
  · rintro ⟨after, ⟨hrun, hdepth⟩, hblank⟩
    exact ⟨⟨after, hrun, hblank⟩, hdepth⟩
  · rintro ⟨⟨after, hrun, hblank⟩, hdepth⟩
    exact ⟨after, ⟨hrun, hdepth⟩, hblank⟩

/-- Under a smaller limit a value is read as before, or refused. -/
theorem ReadsAs.reads_or_refuses {depth depth' : Nat} (hle : depth ≤ depth') {text : List Char}
    {v : Value} (h : ReadsAs (value depth') text v) :
    (∃ a, ReadsAs (value depth) text a) ∨ Refuses (value depth) text := by
  by_cases hdepth : v.depth ≤ depth
  · exact .inl ⟨v, (readsAs_iff_depth hle).mpr ⟨h, hdepth⟩⟩
  · refine .inr fun ext c hext hat a after hrun => ?_
    obtain ⟨hrun', ha⟩ := (restricts_value hle c a after).mp hrun
    obtain ⟨after', hv, -⟩ := h ext c hext hat
    rw [hrun'] at hv
    cases hv
    exact hdepth ha

end Reader

open Reader

/-! ## Documents -/

theorem document_eq_ok_iff {depth : Nat} {c : Cursor} {v : Value} :
    (∃ after, document depth c = .ok (v, after)) ↔
      ∃ raw after, value depth c = .ok (raw, after) ∧ IsBlank after.rest ∧ v = raw.collapsed := by
  simp only [document, bind_eq_ok]
  constructor
  · rintro ⟨after, raw, between, hrun, next, _, hpeek, hend⟩
    have hnext : between.skipBlanks.rest.head? = next := congrArg Prod.fst (Except.ok.inj hpeek)
    cases next with
    | none =>
      cases hend
      exact ⟨raw, between, hrun, isBlank_of_skipBlanks (List.head?_eq_none_iff.mp hnext), rfl⟩
    | some char => cases hend
  · rintro ⟨raw, after, hrun, hblank, rfl⟩
    have hskip : (after.skipBlanks).rest = [] := by
      obtain ⟨rest, offset⟩ := after
      have h := skipBlanks_blank_append hblank [] offset
      rw [List.append_nil] at h
      rw [h]
      rfl
    refine ⟨_, raw, after, hrun, none, after.skipBlanks, ?_, rfl⟩
    show Except.ok (after.skipBlanks.rest.head?, after.skipBlanks) = _
    rw [hskip]
    rfl

theorem parseNested_eq_ok_iff {depth : Nat} {text : String} {v : Value} :
    parseNested depth text = .ok v ↔
      ∃ raw, ReadsAs (value depth) text.toList raw ∧ v = raw.collapsed := by
  have hdocument : parseNested depth text = .ok v ↔
      ∃ after, document depth ⟨text.toList, 0⟩ = .ok (v, after) := by
    unfold parseNested
    show _ ↔ ∃ after, (document depth).run (Cursor.start text) = _
    split
    · next heq => simp [heq]
    · next heq => simp [heq]
  simp only [hdocument, document_eq_ok_iff, readsAs_value_iff]
  constructor
  · rintro ⟨raw, after, hrun, hblank, rfl⟩
    exact ⟨raw, ⟨after, hrun, hblank⟩, rfl⟩
  · rintro ⟨raw, ⟨after, hrun, hblank⟩, rfl⟩
    exact ⟨raw, after, hrun, hblank, rfl⟩

/-- A text of a string, with blanks after it, is read as this string and as nothing else. -/
theorem parseNested_of_isString {depth : Nat} {text : String} {u b : List Char} {v : Value}
    (hs : IsString u) (hb : IsBlank b) (htext : text.toList = u ++ b) :
    parseNested depth text = .ok v ↔ ∃ name, v = .string name ∧ Names u name := by
  obtain ⟨w, rfl⟩ := exists_eq_quote_cons hs
  have hvalue : ∃ offset, value depth ⟨text.toList, 0⟩ =
      (string >>= fun name => Pure.pure (.string name)) ⟨'"' :: w ++ b, offset⟩ := by
    have hat : Cursor.At ⟨text.toList, 0⟩ ('"' :: (w ++ b)) := htext ▸ Cursor.at_rest _
    obtain ⟨offset, hpeek⟩ := peekToken_of_at hat (by decide)
    refine ⟨offset, ?_⟩
    rw [value.eq_def, bind_of_ok hpeek]
    rfl
  obtain ⟨offset, hvalue⟩ := hvalue
  rw [parseNested_eq_ok_iff]
  simp only [readsAs_value_iff, hvalue, bind_eq_ok]
  constructor
  · rintro ⟨_, ⟨after, ⟨name, _, hstring, ⟨⟩⟩, -⟩, rfl⟩
    exact ⟨name, rfl, (hs.names_of_string hstring).1⟩
  · rintro ⟨name, rfl, hname⟩
    obtain ⟨offset', hstring⟩ := hname.string_append b offset
    exact ⟨.string name, ⟨⟨b, offset'⟩, ⟨name, _, hstring, rfl⟩, hb⟩, rfl⟩

/-- A text of a string is read as this string. -/
theorem parseNested_eq_string_iff {depth : Nat} {text name : String} (hs : IsString text.toList) :
    parseNested depth text = .ok (.string name) ↔ Names text.toList name := by
  rw [parseNested_of_isString hs isBlank_nil (List.append_nil _).symm]
  simp

theorem parseDocument_stringText (s : String) : parseDocument (stringText s) = .ok (.string s) :=
  (parseNested_eq_string_iff (isString_stringText s)).mpr (names_stringText s)

section

variable {texts : List (String × String)} {depth : Nat}

/-- What is read of a value under a smaller limit. -/
theorem exists_readsAs_iff {text : String} {x y : Value}
    (hx : parseNested (depth + 1) text = .ok x) :
    (∃ raw, ReadsAs (value depth) text.toList raw ∧ y = raw.collapsed) ↔
      (parseNested depth text).isOk = true ∧ y = x := by
  obtain ⟨raw, hraw, rfl⟩ := parseNested_eq_ok_iff.mp hx
  constructor
  · rintro ⟨raw', hraw', rfl⟩
    have hparse := parseNested_eq_ok_iff.mpr ⟨raw', hraw', rfl⟩
    have hsame := hraw.unique ((readsAs_iff_depth depth.le_succ).mp hraw').1
    exact ⟨by rw [hparse]; rfl, by rw [hsame]⟩
  · rintro ⟨hok, rfl⟩
    obtain ⟨y, hy⟩ := eq_ok_of_isOk hok
    obtain ⟨raw', hraw', -⟩ := parseNested_eq_ok_iff.mp hy
    have hsame := hraw.unique ((readsAs_iff_depth depth.le_succ).mp hraw').1
    exact ⟨raw', hraw', by rw [hsame]⟩

theorem exists_entries_iff {values : List Value}
    (hvalues : List.Forall₂ (fun m x => parseNested (depth + 1) m.2 = .ok x) texts values)
    {members : List (String × Value)} :
    (∃ entries, List.Forall₂ (EntryReads (value depth)) texts entries ∧
        members = Value.collapsedMembers entries) ↔
      (∀ m ∈ texts, (parseNested depth m.2).isOk = true) ∧
        ∃ names, List.Forall₂ (fun m name => Names m.1.toList name) texts names ∧
          members = names.zip values := by
  induction hvalues generalizing members with
  | nil => simp [Value.collapsedMembers]
  | @cons m x texts values hx _ ih =>
    constructor
    · rintro ⟨_, hcons, rfl⟩
      obtain ⟨entry, entries, ⟨hname, hread⟩, hentries, rfl⟩ := List.forall₂_cons_left_iff.mp hcons
      obtain ⟨hok, hcollapsed⟩ := (exists_readsAs_iff hx).mp ⟨entry.2, hread, rfl⟩
      obtain ⟨hall, names, hnames, heq⟩ := ih.mp ⟨entries, hentries, rfl⟩
      refine ⟨List.forall_mem_cons.mpr ⟨hok, hall⟩, entry.1 :: names, .cons hname hnames, ?_⟩
      rw [Value.collapsedMembers, heq, hcollapsed, List.zip_cons_cons]
    · rintro ⟨hall, _, hcons, rfl⟩
      obtain ⟨hok, hall⟩ := List.forall_mem_cons.mp hall
      obtain ⟨name, names, hname, hnames, rfl⟩ := List.forall₂_cons_left_iff.mp hcons
      obtain ⟨raw, hread, hraw⟩ := (exists_readsAs_iff hx).mpr ⟨hok, rfl⟩
      obtain ⟨entries, hentries, heq⟩ := ih.mpr ⟨hall, names, hnames, rfl⟩
      refine ⟨(name, raw) :: entries, .cons ⟨hname, hread⟩ hentries, ?_⟩
      rw [Value.collapsedMembers, ← heq, ← hraw, List.zip_cons_cons]

theorem value_objectText {text : List Char} (h : ObjectText texts text) (depth : Nat) :
    ∃ offset, value (depth + 1) ⟨text, 0⟩ =
      (object (value depth) >>= fun entries => Pure.pure (.object entries)) ⟨text, offset⟩ := by
  obtain @⟨w, b, hw, hb⟩ := h
  obtain ⟨offset, hpeek⟩ := peekToken_of_at (Cursor.at_rest ⟨'\x7b' :: (w ++ '\x7d' :: b), 0⟩)
    (by decide)
  refine ⟨offset, ?_⟩
  rw [value, bind_of_ok hpeek]
  rfl

/-- **The value of an object in terms of those of its members.** -/
theorem parseNested_objectText_iff {text : String} (h : ObjectText texts text.toList)
    {values : List Value}
    (hvalues : List.Forall₂ (fun m x => parseNested (depth + 1) m.2 = .ok x) texts values)
    {v : Value} :
    parseNested (depth + 1) text = .ok v ↔
      (∀ m ∈ texts, (parseNested depth m.2).isOk = true) ∧
        ∃ names, List.Forall₂ (fun m name => Names m.1.toList name) texts names ∧
          v = .object (Assoc.ofList (names.zip values)) := by
  have hread : ∀ m ∈ texts, (∃ a, ReadsAs (value depth) m.2.toList a) ∨
      Refuses (value depth) m.2.toList := by
    intro m hm
    obtain ⟨x, -, hx⟩ := exists_mem_right hvalues hm
    obtain ⟨raw, hraw, -⟩ := parseNested_eq_ok_iff.mp hx
    exact hraw.reads_or_refuses depth.le_succ
  obtain ⟨offset, hvalue⟩ := value_objectText h depth
  rw [parseNested_eq_ok_iff]
  simp only [readsAs_value_iff, hvalue, bind_eq_ok]
  constructor
  · rintro ⟨_, ⟨after, ⟨entries, _, hobject, ⟨⟩⟩, -⟩, rfl⟩
    have hentries := exists_entries_of_object h hread hobject
    obtain ⟨hall, names, hnames, heq⟩ := (exists_entries_iff hvalues).mp ⟨entries, hentries, rfl⟩
    exact ⟨hall, names, hnames, by rw [Value.collapsed, heq]⟩
  · rintro ⟨hall, names, hnames, rfl⟩
    obtain ⟨entries, hentries, heq⟩ := (exists_entries_iff hvalues).mpr ⟨hall, names, hnames, rfl⟩
    obtain ⟨after, hobject, hblank⟩ := object_of_objectText h hentries offset
    refine ⟨.object entries, ⟨after, ⟨entries, after, hobject, rfl⟩, hblank⟩, ?_⟩
    rw [Value.collapsed, heq]

end

end Json

end SchemaGrammar
