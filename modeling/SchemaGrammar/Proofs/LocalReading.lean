import SchemaGrammar.Proofs.SkippedValues

/-!
# Reading looks no further than it has to

A reader that stops before the end of a text has looked at most one character ahead. So whatever
stands further on may be exchanged: the reader does the same on the other text. The loops over
entries are bounded by what is left of the text, and here the bound may shrink with it; it is still
enough, since every round moves forward.

## Main definitions

* `Json.Reader.Local`: what follows the place where a reader stops may be exchanged.
* `Json.Reader.Strict`: a reader that moves forward.

## Main results

* `Json.Reader.exchanges_value`, `Json.Reader.local_value`: reading a value is local.
* `Json.Reader.local_skipValue`: so is skipping one.
-/

namespace SchemaGrammar

namespace Json

namespace Reader

variable {α β : Type}

/-- Where `r` reads something from a text that ends with `ext`, and stops before `ext`, the reader
`r'` reads the same with `ext'` in its place, as long as less than `n` characters come before. -/
structure Local (ext ext' : List Char) (n : Nat) (r r' : Reader α) : Prop where
  forward : ∀ {c a after}, r c = .ok (a, after) → after.rest.length ≤ c.rest.length
  swap : ∀ {w offset a after}, w.length < n → r ⟨w ++ ext, offset⟩ = .ok (a, after) →
    ext.length < after.rest.length → ∀ offset', ∃ v next,
      after.rest = v ++ ext ∧ r' ⟨w ++ ext', offset'⟩ = .ok (a, ⟨v ++ ext', next⟩)

/-- A reader that moves forward. -/
def Strict (r : Reader α) : Prop :=
  ∀ c a after, r c = .ok (a, after) → after.rest.length < c.rest.length

/-! ## Composing readers -/

section

variable {ext ext' : List Char} {n : Nat} {m m' : Reader α} {f f' : α → Reader β}

theorem Local.zero (h : Local ext ext' n m m') (m'' : Reader α) : Local ext ext' 0 m m'' where
  forward := h.forward
  swap hw := absurd hw (Nat.not_lt_zero _)

theorem local_pure (a : α) : Local ext ext' n (Pure.pure a) (Pure.pure a) where
  forward := by
    rintro c _ _ ⟨⟩
    exact le_rfl
  swap := by
    rintro w offset _ _ - ⟨⟩ - offset'
    exact ⟨w, offset', rfl, rfl⟩

theorem Fails.local (h : Fails m) (m' : Reader α) : Local ext ext' n m m' where
  forward hm := absurd hm (h _ _ _)
  swap _ hm := absurd hm (h _ _ _)

theorem Fails.andThen (h : Fails m) (f : α → Reader β) : Fails (m >>= f) := by
  intro c b after heq
  obtain ⟨a, between, hm, -⟩ := bind_eq_ok.mp heq
  exact h c a between hm

theorem Local.within (h : Local ext ext' n m m') (step : Step) :
    Local ext ext' n (Reader.within step m) (Reader.within step m') where
  forward hm := h.forward (within_eq_ok.mp hm)
  swap hw hm hafter offset' := by
    obtain ⟨v, next, hv, hrun⟩ := h.swap hw (within_eq_ok.mp hm) hafter offset'
    exact ⟨v, next, hv, within_eq_ok.mpr hrun⟩

/-- One reader after another; `k` bounds what the first one leaves. -/
theorem Local.bind_of_le {k : Nat} (h : Local ext ext' n m m')
    (hf : ∀ a, Local ext ext' k (f a) (f' a))
    (hk : ∀ {c a after}, m c = .ok (a, after) → c.rest.length < n + ext.length →
      after.rest.length < k + ext.length) :
    Local ext ext' n (m >>= f) (m' >>= f') where
  forward hm := by
    obtain ⟨a, between, hm, hb⟩ := bind_eq_ok.mp hm
    exact (hf a).forward hb |>.trans (h.forward hm)
  swap := by
    intro w offset b after hw hm hafter offset'
    obtain ⟨a, ⟨rest, offset₁⟩, hm, hb⟩ := bind_eq_ok.mp hm
    have hlength := hk hm (by simpa using hw)
    obtain ⟨v, next, rfl, hrun⟩ :=
      h.swap hw hm (Nat.lt_of_lt_of_le hafter ((hf a).forward hb)) offset'
    obtain ⟨v', next', hv', hrun'⟩ := (hf a).swap (by simpa using hlength) hb hafter next
    exact ⟨v', next', hv', bind_eq_ok.mpr ⟨a, _, hrun, hrun'⟩⟩

theorem Local.bind (h : Local ext ext' n m m') (hf : ∀ a, Local ext ext' n (f a) (f' a)) :
    Local ext ext' n (m >>= f) (m' >>= f') :=
  h.bind_of_le hf fun hm hc => Nat.lt_of_le_of_lt (h.forward hm) hc

/-- After a step forward there is less text to come. -/
theorem Local.bind_of_strict (h : Local ext ext' n m m') (hm : Strict m)
    (hf : ∀ a, Local ext ext' (n - 1) (f a) (f' a)) : Local ext ext' n (m >>= f) (m' >>= f') := by
  refine h.bind_of_le hf fun hrun hc => ?_
  have hlt := hm _ _ _ hrun
  omega

theorem length_skip_le (c : Cursor) : c.skip.rest.length ≤ c.rest.length := by
  obtain ⟨_ | ⟨char, w⟩, offset⟩ := c
  · exact le_rfl
  · exact Nat.le_succ _

theorem local_eat_bind {f f' : Unit → Reader β} (h : Local ext ext' (n - 1) (f ()) (f' ())) :
    Local ext ext' n (eat >>= f) (eat >>= f') where
  forward hb := (h.forward hb).trans (length_skip_le _)
  swap := by
    intro w offset b after hw hb hafter offset'
    cases w with
    | nil =>
      have hlength := (h.forward hb).trans (length_skip_le ⟨ext, offset⟩)
      exact absurd hafter (Nat.not_lt.mpr hlength)
    | cons char w => exact h.swap (by rw [List.length_cons] at hw; omega) hb hafter _

theorem local_eat : Local ext ext' n eat eat := by
  have h : Local ext ext' n (eat >>= Pure.pure) (eat >>= Pure.pure) :=
    local_eat_bind (local_pure ())
  exact h

/-- A character may be skipped or not. -/
theorem local_ite_eat {f f' : Unit → Reader β} {p : Prop} [Decidable p]
    (h : Local ext ext' n (f ()) (f' ())) :
    Local ext ext' n (if p then eat >>= f else f ()) (if p then eat >>= f' else f' ()) := by
  split
  · exact local_eat.bind fun _ => h
  · exact h

theorem local_peek : Local ext ext' n peek peek where
  forward := by
    rintro c _ _ ⟨⟩
    exact le_rfl
  swap := by
    rintro w offset _ _ - ⟨⟩ hafter offset'
    cases w with
    | nil => exact absurd hafter (Nat.lt_irrefl _)
    | cons char w => exact ⟨char :: w, offset', rfl, rfl⟩

theorem local_peekToken : Local ext ext' n peekToken peekToken where
  forward := by
    rintro c _ _ ⟨⟩
    exact length_skipBlanks_le c
  swap := by
    rintro w offset _ _ - ⟨⟩ hafter offset'
    induction w generalizing offset offset' with
    | nil => exact absurd hafter (Nat.not_lt.mpr (length_skipBlanks_le ⟨ext, offset⟩))
    | cons char w ih =>
      cases hchar : Cursor.isBlank char with
      | true =>
        have hskip : ∀ (w : List Char) offset,
            Cursor.skipBlanks ⟨char :: w, offset⟩ = Cursor.skipBlanks ⟨w, offset + 1⟩ :=
          fun _ _ => if_pos hchar
        simp only [peekToken, List.cons_append, hskip] at hafter ih ⊢
        exact ih hafter _
      | false =>
        simp only [peekToken, List.cons_append, skipBlanks_cons hchar]
        exact ⟨char :: w, offset', rfl, rfl⟩

/-- The bound of a loop may shrink with the text, as long as it is enough for what is left. -/
theorem local_steps {r : Reader α} (r' : Steps → Reader α)
    (h : ∀ step steps' n, n ≤ steps'.length + 1 → Local ext ext' n r (r' (step :: steps')))
    {steps' : Steps} (hn : n ≤ steps'.length) : Local ext ext' n r (r' steps') := by
  cases steps' with
  | nil =>
    obtain rfl := Nat.le_zero.mp hn
    exact (h ' ' [] 0 (Nat.zero_le _)).zero _
  | cons step steps' => exact h step steps' n hn

theorem local_stepsLeft_bind {f f' : Steps → Reader β}
    (h : ∀ steps steps' n, n ≤ steps'.length → Local ext ext' n (f steps) (f' steps')) :
    Local ext ext' n (stepsLeft >>= f) (stepsLeft >>= f') where
  forward hb := (h _ [] 0 (Nat.zero_le _)).forward hb
  swap := by
    intro w offset b after hw hb hafter offset'
    refine (h (' ' :: ' ' :: (w ++ ext)) (' ' :: ' ' :: (w ++ ext')) (w.length + 1) ?_).swap
      w.length.lt_succ_self hb hafter offset'
    simp
    omega

end

/-! ## Exchanging what comes next -/

/-- What comes before a place in front of `ext` does not depend on `ext`. -/
theorem exists_append_of_length_lt {w u rest ext : List Char} (h : w ++ ext = u ++ rest)
    (hrest : ext.length < rest.length) : ∃ v, rest = v ++ ext ∧ w = u ++ v := by
  rcases List.append_eq_append_iff.mp h with ⟨x, -, rfl⟩ | ⟨x, rfl, rfl⟩
  · rw [List.length_append] at hrest
    omega
  · exact ⟨x, rfl, rfl⟩

theorem Exchanges.local {m : Reader α} {ext ext' : List Char} {n : Nat} (h : Exchanges 0 m) :
    Local ext ext' n m m where
  forward {c a after} hm := by
    obtain ⟨u, hu, -⟩ := h c a after (Nat.zero_le _) hm
    rw [hu, List.length_append]
    exact Nat.le_add_left _ _
  swap {w offset a after} _ hm hafter offset' := by
    obtain ⟨u, hu, hswap⟩ := h _ a after (Nat.zero_le _) hm
    obtain ⟨v, hv, rfl⟩ := exists_append_of_length_lt hu hafter
    have hnext : SameNext after.rest (v ++ ext') := by
      rw [hv] at hafter ⊢
      cases v with
      | nil => exact absurd hafter (Nat.lt_irrefl _)
      | cons char v => exact .inl rfl
    obtain ⟨next, hrun⟩ := hswap (v ++ ext') offset' hnext
    exact ⟨v, next, hv, by rw [List.append_assoc, hrun]⟩

/-! ## Scalars -/

theorem exchanges_letters (expected : List Char) : Exchanges 0 (letters expected) := by
  induction expected with
  | nil => exact exchanges_pure ()
  | cons char expected ih =>
    refine exchanges_peek_bind (fun _ _ _ => nofun) fun found => ?_
    dsimp only
    split
    · exact exchanges_eat_bind ih
    · exact (fails_failAhead _).exchanges

theorem exchanges_string : Exchanges 0 string := by
  rintro ⟨_ | ⟨char, w⟩, offset⟩ text after - h
  · cases h
  · obtain ⟨u, chars, hu, hw, rfl⟩ := stringBody_eq_ok_iff.mp ⟨after.offset, h⟩
    have hw : w = u ++ '"' :: after.rest := hw
    refine ⟨char :: (u ++ ['"']), by simp [hw], fun rest' offset' _ => ?_⟩
    obtain ⟨next, hrun⟩ := stringBody_eq_ok_iff.mpr ⟨u, chars, hu, rfl, rfl⟩
    refine ⟨next, ?_⟩
    rw [List.cons_append, List.append_assoc]
    exact hrun

theorem exchanges_number : Exchanges 0 number := by
  refine exchanges_peek_bind (fun _ _ _ => nofun) fun first => ?_
  split
  · exact exchanges_eat_bind (scans_unsignedNumber true).exchanges
  · exact (scans_unsignedNumber false).exchanges.ahead

/-! ## Lists and objects -/

section

variable {ext ext' : List Char} {n : Nat} {read read' : Reader α}

theorem local_hasNextItem (first : Bool) :
    Local ext ext' n (hasNextItem first) (hasNextItem first) := by
  refine local_peekToken.bind fun next => ?_
  split
  · exact (fails_failAhead _).local _
  · exact local_pure _
  · split
    · exact local_pure _
    split
    · refine local_eat.bind fun _ => local_peekToken.bind fun next => ?_
      split
      · exact (fails_failAhead _).local _
      · exact (fails_failAhead _).local _
      · exact local_pure _
    · exact (fails_failAhead _).local _

theorem local_closeList : Local ext ext' n closeList closeList := by
  refine local_peekToken.bind fun next => ?_
  split
  · exact (fails_failAhead _).local _
  · exact local_eat
  · refine Fails.local (Fails.bind (fun _ => Fails.bind (fun next => ?_) _) _) _
    split
    · exact fails_failAhead _
    · exact fails_failAhead _
  · exact (fails_failAhead _).local _

theorem local_nextKey (first : Bool) : Local ext ext' n (nextKey first) (nextKey first) := by
  refine Local.within ?_ _
  refine local_peekToken.bind fun next => ?_
  split
  · exact (fails_failAhead _).local _
  · exact local_pure _
  · split
    · split
      · exact exchanges_string.local.bind fun name => local_pure _
      · exact (fails_failAhead _).local _
    split
    · refine local_eat.bind fun _ => local_peekToken.bind fun next => ?_
      split
      · exact (fails_failAhead _).local _
      · exact exchanges_string.local.bind fun name => local_pure _
      · exact (fails_failAhead _).local _
      · exact (fails_failAhead _).local _
    · exact (fails_failAhead _).local _

theorem local_colon : Local ext ext' n colon colon := by
  refine local_peekToken.bind fun next => ?_
  split
  · exact (fails_failAhead _).local _
  · exact local_eat
  · exact (fails_failAhead _).local _

theorem local_closeObject : Local ext ext' n closeObject closeObject := by
  refine local_peekToken.bind fun next => ?_
  split
  · exact (fails_failAhead _).local _
  · exact local_eat
  · exact (fails_failAhead _).local _
  · exact (fails_failAhead _).local _

theorem Strict.within (h : Strict read) (step : Step) : Strict (Reader.within step read) :=
  fun c a after hrun => h c a after (within_eq_ok.mp hrun)

theorem local_elements (hread : ∀ n, Local ext ext' n read read') (hstrict : Strict read)
    (steps : Steps) {steps' : Steps} (hn : n ≤ steps'.length) (index : Nat) (done : List α) :
    Local ext ext' n (elements read steps index done) (elements read' steps' index done) := by
  induction steps generalizing steps' n index done with
  | nil => exact (fails_failHere _).local _
  | cons _ steps ih =>
    refine local_steps (elements read' · index done) (fun _ steps' n hn => ?_) hn
    refine (local_hasNextItem _).bind fun more => ?_
    split
    · refine ((hread n).within _).bind_of_strict (hstrict.within _) fun item => ?_
      exact ih (Nat.sub_le_of_le_add hn) _ _
    · exact local_pure _

theorem local_list (hread : ∀ n, Local ext ext' n read read') (hstrict : Strict read) :
    Local ext ext' n (list read) (list read') := by
  refine local_eat.bind fun _ => local_stepsLeft_bind fun steps steps' n hn => ?_
  refine (local_elements hread hstrict steps hn 0 []).bind fun items => ?_
  exact local_closeList.bind fun _ => local_pure items

theorem local_members (hread : ∀ n, Local ext ext' n read read') (hstrict : Strict read)
    (steps : Steps) {steps' : Steps} (hn : n ≤ steps'.length) (first : Bool)
    (done : List (String × α)) :
    Local ext ext' n (members read steps first done) (members read' steps' first done) := by
  induction steps generalizing steps' n first done with
  | nil => exact (fails_failHere _).local _
  | cons _ steps ih =>
    refine local_steps (members read' · first done) (fun _ steps' n hn => ?_) hn
    refine (local_nextKey _).bind fun name => ?_
    split
    · exact local_pure _
    · refine local_colon.bind fun _ => ?_
      refine ((hread n).within _).bind_of_strict (hstrict.within _) fun entry => ?_
      exact ih (Nat.sub_le_of_le_add hn) _ _

theorem local_object (hread : ∀ n, Local ext ext' n read read') (hstrict : Strict read) :
    Local ext ext' n (object read) (object read') := by
  refine local_eat.bind fun _ => local_stepsLeft_bind fun steps steps' n hn => ?_
  refine (local_members hread hstrict steps hn true []).bind fun entries => ?_
  exact local_closeObject.bind fun _ => local_pure entries

theorem strict_value (depth : Nat) : Strict (value depth) := fun _ _ _ h => (skips_value h).length_lt

end

/-! ## Values -/

/-- What a closing bracket ends is read whatever stands behind the bracket. -/
theorem exists_closed {m : Reader α} {close : Reader Unit} {char : Char}
    (hm : ∀ ext ext' n, Local ext ext' n m m)
    (hclose : ∀ c after, close c = .ok ((), after) ↔
      ∃ b, peekToken c = .ok (some char, b) ∧ after = b.skip) {c after : Cursor} {a : α}
    (h : (m >>= fun a => close >>= fun _ => Pure.pure a) c = .ok (a, after)) :
    ∃ u, c.rest = u ++ after.rest ∧ ∀ rest' offset', ∃ next,
      (m >>= fun a => close >>= fun _ => Pure.pure a) ⟨u ++ rest', offset'⟩ =
        .ok (a, ⟨rest', next⟩) := by
  obtain ⟨_, between, hrun, h⟩ := bind_eq_ok.mp h
  obtain ⟨_, _, hend, ⟨⟩⟩ := bind_eq_ok.mp h
  obtain ⟨b, hpeek, rfl⟩ := (hclose _ _).mp hend
  obtain ⟨rfl, left, hleft⟩ := rest_of_peekToken hpeek
  obtain ⟨blanks, w, offset, hblanks, hbetween, hskip, hchar⟩ := exists_skipBlanks_eq between
  obtain rfl : w = char :: left := by rw [← hleft, hskip]
  have hafter : between.skipBlanks.skip.rest = left := by simp [hskip, Cursor.skip]
  -- the bracket stands before the last characters, as many as are left
  have hlt : left.length < between.rest.length := by
    simp only [hbetween, List.length_append, List.length_cons]
    omega
  have hle := (hm [] [] 0).forward hrun
  obtain ⟨u, ext, hc, hext⟩ : ∃ u ext, c.rest = u ++ ext ∧ ext.length = left.length :=
    ⟨_, _, (List.take_append_drop (c.rest.length - left.length) c.rest).symm, by
      rw [List.length_drop]
      omega⟩
  obtain ⟨_, start⟩ := c
  obtain rfl := hc
  have hswap : ext = left ∧ ∀ rest' offset', ∃ next,
      m ⟨u ++ rest', offset'⟩ = .ok (a, ⟨blanks ++ char :: rest', next⟩) := by
    have hv : ∀ {v}, between.rest = v ++ ext → v = blanks ++ [char] ∧ ext = left := by
      intro v hv
      refine List.append_inj' ?_ hext
      rw [← hv, hbetween, List.append_assoc, List.singleton_append]
    refine ⟨?_, fun rest' offset' => ?_⟩
    · obtain ⟨v, -, hrest, -⟩ := (hm ext [] _).swap u.length.lt_succ_self hrun (hext ▸ hlt) 0
      exact (hv hrest).2
    · obtain ⟨v, next, hrest, hrun'⟩ :=
        (hm ext rest' _).swap u.length.lt_succ_self hrun (hext ▸ hlt) offset'
      refine ⟨next, ?_⟩
      rw [hrun', (hv hrest).1, List.append_assoc, List.singleton_append]
  obtain ⟨rfl, hswap⟩ := hswap
  refine ⟨u, by rw [hafter], fun rest' offset' => ?_⟩
  obtain ⟨next, hrun'⟩ := hswap rest' offset'
  obtain ⟨_, hpeek'⟩ := peekToken_of_at (c := ⟨_, next⟩) ⟨blanks, hblanks, rfl⟩ (hchar char rfl)
  exact ⟨_, bind_eq_ok.mpr ⟨a, _, hrun',
    bind_eq_ok.mpr ⟨(), _, (hclose _ _).mpr ⟨_, hpeek', rfl⟩, rfl⟩⟩⟩

theorem closeObject_eq_ok_iff (c after : Cursor) :
    closeObject c = .ok ((), after) ↔ ∃ b, peekToken c = .ok (some '\x7d', b) ∧ after = b.skip := by
  refine ⟨peekToken_of_closeObject, ?_⟩
  rintro ⟨b, hpeek, rfl⟩
  exact bind_of_ok hpeek

theorem closeList_eq_ok_iff (c after : Cursor) :
    closeList c = .ok ((), after) ↔ ∃ b, peekToken c = .ok (some ']', b) ∧ after = b.skip := by
  refine ⟨peekToken_of_closeList, ?_⟩
  rintro ⟨b, hpeek, rfl⟩
  exact bind_of_ok hpeek

section

variable {read : Reader α} {k : Nat} (hread : ∀ ext ext' n, Local ext ext' n read read)
  (hstrict : Strict read)

include hread hstrict

theorem exchanges_list : Exchanges k (list read) := by
  have heq : list read = (eat >>= fun _ => stepsLeft >>= fun steps => elements read steps 0 []) >>=
      fun items => closeList >>= fun _ => Pure.pure items := by
    simp only [list, bind_assoc]
  rw [heq]
  intro c items after _ h
  obtain ⟨u, hu, hswap⟩ := exists_closed (fun ext ext' n => local_eat.bind fun _ =>
    local_stepsLeft_bind fun steps _ _ hn =>
      local_elements (hread ext ext') hstrict steps hn 0 []) closeList_eq_ok_iff h
  exact ⟨u, hu, fun rest' offset' _ => hswap rest' offset'⟩

theorem exchanges_object : Exchanges k (object read) := by
  have heq : object read = (eat >>= fun _ => stepsLeft >>= fun steps =>
      members read steps true []) >>=
        fun entries => closeObject >>= fun _ => Pure.pure entries := by
    simp only [object, bind_assoc]
  rw [heq]
  intro c entries after _ h
  obtain ⟨u, hu, hswap⟩ := exists_closed (fun ext ext' n => local_eat.bind fun _ =>
    local_stepsLeft_bind fun steps _ _ hn =>
      local_members (hread ext ext') hstrict steps hn true []) closeObject_eq_ok_iff h
  exact ⟨u, hu, fun rest' offset' _ => hswap rest' offset'⟩

end

/-- The next token is seen again, if there is one. -/
theorem exchanges_peekToken_bind {f : Option Char → Reader β} (hnone : Fails (f none))
    (hsome : ∀ char, Exchanges 1 (f (some char))) : Exchanges 0 (peekToken >>= f) := by
  intro c b after _ hrun
  obtain ⟨token, between, hpeek, hrun⟩ := bind_eq_ok.mp hrun
  cases token with
  | none => exact absurd hrun (hnone _ _ _)
  | some char =>
    obtain ⟨rfl, left, hleft⟩ := rest_of_peekToken hpeek
    obtain ⟨blanks, w, offset, hblanks, hc, hskip, hchar⟩ := exists_skipBlanks_eq c
    obtain rfl : w = char :: left := by rw [← hleft, hskip]
    obtain ⟨u, hu, hswap⟩ := hsome char _ b after (by simp [hleft]) hrun
    rw [hleft] at hu
    refine ⟨blanks ++ u, by rw [hc, hu, List.append_assoc], fun rest' offset' hnext => ?_⟩
    obtain ⟨left', hleft'⟩ := List.head?_eq_some_iff.mp (hnext.head hu)
    rw [List.append_assoc]
    obtain ⟨next, hpeek'⟩ := peekToken_of_at (c := ⟨blanks ++ (u ++ rest'), offset'⟩)
      ⟨blanks, hblanks, by rw [hleft']⟩ (hchar char rfl)
    obtain ⟨next', hrun'⟩ := hswap rest' next hnext
    exact ⟨next', bind_eq_ok.mpr ⟨_, _, hpeek', hleft' ▸ hrun'⟩⟩

/-- **Reading a value looks no further than one character after it**, and there it only asks
whether a number goes on. -/
theorem exchanges_value (depth : Nat) : Exchanges 0 (value depth) := by
  induction depth using Nat.strongRecOn with
  | ind depth ih =>
    unfold value
    refine exchanges_peekToken_bind (fails_failAhead _) fun next => ?_
    split
    · contradiction
    · exact exchanges_eat_bind ((exchanges_letters _).bind fun _ => exchanges_pure _)
    · exact exchanges_eat_bind ((exchanges_letters _).bind fun _ => exchanges_pure _)
    · exact exchanges_eat_bind ((exchanges_letters _).bind fun _ => exchanges_pure _)
    · exact exchanges_string.ahead.bind fun _ => exchanges_pure _
    · cases depth with
      | zero => exact (fails_failAhead _).exchanges
      | succ depth =>
        exact (exchanges_list (fun _ _ _ => (ih depth depth.lt_succ_self).local)
          (strict_value depth)).bind fun _ => exchanges_pure _
    · cases depth with
      | zero => exact (fails_failAhead _).exchanges
      | succ depth =>
        exact (exchanges_object (fun _ _ _ => (ih depth depth.lt_succ_self).local)
          (strict_value depth)).bind fun _ => exchanges_pure _
    · split
      · exact exchanges_number.ahead.bind fun _ => exchanges_pure _
      · exact (fails_failAhead _).exchanges

theorem local_value {ext ext' : List Char} {n : Nat} (depth : Nat) :
    Local ext ext' n (value depth) (value depth) :=
  (exchanges_value depth).local

/-! ## Values that are skipped -/

section

variable {ext ext' : List Char} {n : Nat}

theorem strict_skipString : Strict skipString := by
  intro c a after h
  obtain ⟨units, -, hrest, -⟩ := exists_units_of_skipStringBody (skipString_eq_ok h)
  have hlength := congrArg List.length hrest
  have hskip := length_skip_le c
  rw [List.length_append, List.length_cons] at hlength
  omega

theorem exchanges_skipString : Exchanges 0 skipString := by
  rintro ⟨_ | ⟨char, w⟩, offset⟩ a after - h
  · cases h
  · obtain ⟨units, -, hw, hskip⟩ := exists_units_of_skipStringBody (skipString_eq_ok h)
    have hw : w = units.flatten ++ '"' :: after.rest := hw
    refine ⟨char :: (units.flatten ++ ['"']), by simp [hw], fun rest' offset' _ => ?_⟩
    obtain ⟨next, hrun⟩ := hskip rest' (offset' + char.utf8Size)
    refine ⟨next, ?_⟩
    rw [List.cons_append, List.append_assoc]
    show (skipStringBody (units.flatten ++ '"' :: rest') (offset' + char.utf8Size)).map _ = _
    rw [hrun]
    rfl

theorem local_skipExponent : Local ext ext' n skipExponent skipExponent := by
  refine local_eat.bind fun _ => local_peek.bind fun sign => local_ite_eat ?_
  refine local_peek.bind fun first => ?_
  split
  · exact exchanges_skipDigits.local
  · exact (fails_failAhead _).local _

theorem local_skipFraction : Local ext ext' n skipFraction skipFraction := by
  refine local_eat.bind fun _ => local_peek.bind fun first => ?_
  split
  · refine exchanges_skipDigits.local.bind fun _ => local_peek.bind fun next => ?_
    split
    · exact local_skipExponent
    · exact local_skipExponent
    · exact local_pure _
  · exact (fails_failAhead _).local _

/-- The integer part is local, if what skips the rest of the number is. -/
theorem local_integerPart {next : Unit → Reader Unit} (h : Local ext ext' n (next ()) (next ()))
    {first : Option Char} {r : Reader Unit}
    (hr : r = if (first == some '0') = true then eat >>= fun _ => peek >>= fun o =>
        if o.any Char.isDigit = true then failAhead .invalidNumber >>= next else next ()
      else if first.any Char.isDigit = true then modify Cursor.skipDigits >>= next
      else failAhead .invalidNumber >>= next) : Local ext ext' n r r := by
  subst hr
  split
  · refine local_eat.bind fun _ => local_peek.bind fun o => ?_
    split
    · exact ((fails_failAhead _).andThen next).local _
    · exact h
  · split
    · exact exchanges_skipDigits.local.bind fun _ => h
    · exact ((fails_failAhead _).andThen next).local _

theorem local_skipUnsigned : Local ext ext' n skipUnsigned skipUnsigned := by
  refine local_peek.bind fun first => local_integerPart ?_ rfl
  refine local_peek.bind fun next => ?_
  split
  · exact local_skipFraction
  · exact local_skipExponent
  · exact local_skipExponent
  · exact local_pure _

theorem strict_skipUnsigned : Strict skipUnsigned := by
  intro c a after h
  obtain ⟨number, hnumber, hrest⟩ := exists_isNumber_of_skipUnsigned h
  have hpos := List.length_pos_iff.mpr (IsValue.number (hnumber [] (.inl rfl))).ne_nil
  rw [hrest, List.length_append]
  rw [List.nil_append] at hpos
  omega

theorem local_skipLead (bracket : Bracket) :
    Local ext ext' n (skipLead bracket) (skipLead bracket) := by
  cases bracket with
  | list => exact local_pure ()
  | object =>
    refine local_peekToken.bind fun token => ?_
    dsimp only
    split
    · refine exchanges_skipString.local.bind fun _ => local_peekToken.bind fun token => ?_
      split
      · exact local_eat
      · exact (fails_failAhead _).local _
      · exact (fails_failAhead _).local _
    · exact ((fails_failAhead _).andThen _).local _
    · exact ((fails_failAhead _).andThen _).local _

theorem local_skipRest (steps : Steps) {steps' : Steps} (hn : n ≤ steps'.length)
    (opened : List Bracket) (complete : Bool) :
    Local ext ext' n (skipRest steps opened complete) (skipRest steps' opened complete) := by
  induction steps generalizing steps' n opened complete with
  | nil =>
    unfold skipRest
    exact (fails_failHere _).local _
  | cons _ steps ih =>
    refine local_steps (skipRest · opened complete) (fun step steps' n hn => ?_) hn
    have hrest : ∀ opened complete, Local ext ext' (n - 1) (skipRest steps opened complete)
        (skipRest steps' opened complete) := ih (Nat.sub_le_of_le_add hn)
    have henter : ∀ bracket, Local ext ext' (n - 1) (skipRest.enter steps bracket opened)
        (skipRest.enter steps' bracket opened) := by
      intro bracket
      unfold skipRest.enter
      refine local_peekToken.bind fun token => ?_
      cases token with
      | none => exact (fails_failAhead _).local _
      | some char =>
        dsimp only
        split
        · exact local_eat.bind fun _ => hrest _ _
        · exact (local_skipLead bracket).bind fun _ => hrest _ _
    cases complete with
    | true =>
      cases opened with
      | nil =>
        rw [skipRest, skipRest]
        exact local_pure ()
      | cons bracket outer =>
        rw [skipRest, skipRest]
        refine local_peekToken.bind fun token => ?_
        cases token with
        | none => exact (fails_failAhead _).local _
        | some char =>
          dsimp only
          split
          · exact local_eat_bind ((local_skipLead bracket).bind fun _ => hrest _ _)
          split
          · exact local_eat_bind (hrest _ _)
          · exact (fails_failAhead _).local _
    | false =>
      rw [skipRest, skipRest]
      refine local_peekToken.bind fun token => ?_
      split
      · exact (fails_failAhead _).local _
      · exact local_eat_bind ((exchanges_letters _).local.bind fun _ => hrest _ _)
      · exact local_eat_bind ((exchanges_letters _).local.bind fun _ => hrest _ _)
      · exact local_eat_bind ((exchanges_letters _).local.bind fun _ => hrest _ _)
      · exact local_eat_bind (local_skipUnsigned.bind fun _ => hrest _ _)
      · exact exchanges_skipString.local.bind_of_strict strict_skipString fun _ => hrest _ _
      · exact local_eat_bind (henter .list)
      · exact local_eat_bind (henter .object)
      · split
        · exact local_skipUnsigned.bind_of_strict strict_skipUnsigned fun _ => hrest _ _
        · exact (fails_failAhead _).local _

/-- **Skipping a value looks no further than one character after it.** -/
theorem local_skipValue : Local ext ext' n skipValue skipValue :=
  local_stepsLeft_bind fun steps _ _ hn => local_skipRest steps hn [] false

theorem strict_skipValue : Strict skipValue := fun _ _ _ h => (skips_of_skipValue h).length_lt

end

end Reader

end Json

end SchemaGrammar
