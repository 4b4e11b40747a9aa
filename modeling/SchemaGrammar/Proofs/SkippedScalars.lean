import SchemaGrammar.Json.Skipper
import SchemaGrammar.Proofs.StringSpelling

/-!
# Skipping strings, numbers and words

A scalar is skipped by its syntax alone: the escapes of a string only need to be of the right shape,
and a number may be of any size. So what is skipped is exactly as much as the syntax says, and a
string or number that can also be read ends at the same character. What is made of a number depends
on its text and on the character that comes next, and any that ends a number will do.

## Main definitions

* `Json.Reader.EndsLike`: a reader ends where another does.
* `Json.Reader.Exchanges`: what comes next may be exchanged, as long as no number goes on with it.
* `Json.Reader.Scans`: both at once.
* `Json.Reader.skipScalar`: a value that stands in no brackets is skipped.

## Main results

* `Json.skipStringBody_of_stringBody`, `Json.Reader.scans_unsignedNumber`: a string or number
  that is read is skipped.
* `Json.Reader.exists_isValue_of_skipScalar`: what is skipped is a value.
-/

namespace SchemaGrammar

namespace Json

/-! ## Strings -/

/-- A string that is read is skipped. -/
theorem skipStringBody_of_stringBody {read w : List Char} {offset : Nat} {text : String}
    {after : Cursor} (h : stringBody read w offset = .ok (text, after)) :
    skipStringBody w offset = .ok after := by
  fun_induction stringBody read w offset with
  | case2 read rest offset =>
    cases h
    rfl
  | case7 read a b c d offset first hfirst _ hl e f g i rest second hsecond hc ih =>
    simpa [skipStringBody, hfirst, hsecond] using ih h
  | case10 read a b c d rest offset unit hunit hc hl ih =>
    simpa [skipStringBody, hunit] using ih h
  | case12 read letter rest offset hu hu' c hletter ih =>
    rw [skipStringBody]
    · simpa [hletter] using ih h
    all_goals assumption
  | case15 read c rest offset hq hlast _ _ hb hc ih =>
    rw [skipStringBody, if_neg hc]
    · exact ih h
    all_goals assumption
  | _ => cases h

theorem isStringUnit_of_shortEscape? {letter char : Char} (h : shortEscape? letter = some char) :
    IsStringUnit ['\\', letter] := by
  refine .escape ?_
  unfold shortEscape? at h
  split at h <;> simp_all

/-- What is skipped of a string are units and the closing quote, and they are skipped whatever
follows. -/
theorem exists_units_of_skipStringBody {w : List Char} {offset : Nat} {after : Cursor}
    (h : skipStringBody w offset = .ok after) :
    ∃ units : List (List Char), (∀ u ∈ units, IsStringUnit u) ∧
      w = units.flatten ++ '"' :: after.rest ∧ ∀ rest offset', ∃ next,
        skipStringBody (units.flatten ++ '"' :: rest) offset' = .ok ⟨rest, next⟩ := by
  fun_induction skipStringBody w offset with
  | case2 rest offset =>
    cases h
    exact ⟨[], by simp, rfl, fun _ offset' => ⟨offset' + 1, rfl⟩⟩
  | case5 a b c d rest offset unit hunit ih =>
    obtain ⟨units, hunits, rfl, hskip⟩ := ih h
    refine ⟨['\\', 'u', a, b, c, d] :: units,
      List.forall_mem_cons.mpr ⟨isStringUnit_of_codeUnit? hunit, hunits⟩, rfl,
      fun rest offset' => ?_⟩
    obtain ⟨next, hnext⟩ := hskip rest (offset' + 6)
    exact ⟨next, by simpa [skipStringBody, hunit] using hnext⟩
  | case7 letter rest offset _ _ char hletter ih =>
    obtain ⟨units, hunits, rfl, hskip⟩ := ih h
    refine ⟨['\\', letter] :: units,
      List.forall_mem_cons.mpr ⟨isStringUnit_of_shortEscape? hletter, hunits⟩, rfl,
      fun rest offset' => ?_⟩
    obtain ⟨next, hnext⟩ := hskip rest (offset' + 2)
    have hne : letter ≠ 'u' := by
      rintro rfl
      cases hletter
    refine ⟨next, ?_⟩
    show skipStringBody ('\\' :: letter :: (units.flatten ++ '"' :: rest)) offset' = _
    rw [skipStringBody]
    · simpa [hletter] using hnext
    all_goals simp_all
  | case10 char rest offset hq hlast _ _ hb hc ih =>
    obtain ⟨units, hunits, rfl, hskip⟩ := ih h
    have hback : char ≠ '\\' := by
      rintro rfl
      cases hw : units.flatten ++ '"' :: after.rest with
      | nil => exact hlast rfl hw
      | cons letter _ => exact hb letter _ rfl hw
    refine ⟨[char] :: units, List.forall_mem_cons.mpr ⟨.plain (not_lt.mp hc) hq hback, hunits⟩, rfl,
      fun rest offset' => ?_⟩
    obtain ⟨next, hnext⟩ := hskip rest (offset' + char.utf8Size)
    refine ⟨next, ?_⟩
    rw [List.flatten_cons, List.append_assoc, List.singleton_append, skipStringBody, if_neg hc,
      hnext] <;> simp_all
  | _ => cases h

theorem IsValue.ne_nil {w : List Char} (h : IsValue w) : w ≠ [] := by
  obtain ⟨c, rest, -, rfl⟩ := exists_cons_of_isValue h
  exact List.cons_ne_nil c rest

/-- A text that cannot go on with a number. -/
def EndsNumber (ext : List Char) : Prop :=
  ∀ c ∈ ext.head?, c.isDigit = false ∧ c ≠ '.' ∧ c ≠ 'e' ∧ c ≠ 'E'

namespace Reader

variable {α β : Type}

/-- A reader that gives no result. -/
def Fails (r : Reader α) : Prop := ∀ c a after, r c ≠ .ok (a, after)

theorem fails_failHere (what : Malformed) : Fails (failHere what : Reader α) := nofun

theorem fails_failAhead (what : Malformed) : Fails (failAhead what : Reader α) := nofun

theorem bind_eq_ok {m : Reader α} {f : α → Reader β} {c : Cursor} {b : β} {after : Cursor} :
    (m >>= f) c = .ok (b, after) ↔ ∃ a between, m c = .ok (a, between) ∧
      f a between = .ok (b, after) := by
  show (m c >>= fun p => f p.1 p.2) = .ok (b, after) ↔ _
  cases m c with
  | error fault =>
    constructor
    · rintro ⟨⟩
    · rintro ⟨a, between, ⟨⟩, hf⟩
  | ok p =>
    constructor
    · exact fun hf => ⟨p.1, p.2, rfl, hf⟩
    · rintro ⟨a, between, ⟨⟩, hf⟩
      exact hf

theorem within_eq_ok {m : Reader α} {step : Step} {c after : Cursor} {a : α} :
    within step m c = .ok (a, after) ↔ m c = .ok (a, after) := by
  unfold within
  cases m c <;> simp

theorem bind_of_ok {m : Reader α} {f : α → Reader β} {c after : Cursor} {a : α}
    (h : m c = .ok (a, after)) : (m >>= f) c = f a after := by
  show (m c >>= fun p => f p.1 p.2) = _
  rw [h]
  rfl

theorem Fails.bind {f : α → Reader β} (h : ∀ a, Fails (f a)) (m : Reader α) : Fails (m >>= f) := by
  intro c b after heq
  obtain ⟨a, between, -, hb⟩ := bind_eq_ok.mp heq
  exact h a between b after hb

theorem get_bind_apply (f : Cursor → Reader β) (c : Cursor) : (get >>= f) c = f c c := rfl

theorem set_bind_apply (f : PUnit → Reader β) (c next : Cursor) :
    (set next >>= f) c = f ⟨⟩ next := rfl

/-! ## Words and numbers -/

theorem rest_of_letters {expected : List Char} {c after : Cursor}
    (h : letters expected c = .ok ((), after)) : c.rest = expected ++ after.rest := by
  induction expected generalizing c with
  | nil =>
    cases h
    rfl
  | cons char expected ih =>
    obtain ⟨found, _, ⟨⟩, h⟩ := bind_eq_ok.mp h
    obtain ⟨_ | ⟨next, rest⟩, offset⟩ := c
    · cases h
    · by_cases hnext : next = char
      · subst hnext
        have h : (eat >>= fun _ => letters expected) ⟨next :: rest, offset⟩ = .ok ((), after) := by
          simpa using h
        obtain ⟨_, _, ⟨⟩, h⟩ := bind_eq_ok.mp h
        exact congrArg (next :: ·) (ih h)
      · simp [hnext] at h
        cases h

theorem exists_isDigits_of_head {c : Cursor} (h : c.rest.head?.any Char.isDigit = true) :
    ∃ digits, IsDigits digits ∧ c.rest = digits ++ c.skipDigits.rest := by
  obtain ⟨rest, offset⟩ := c
  refine ⟨rest.takeWhile Char.isDigit, ⟨?_, fun d hd => List.mem_takeWhile_imp hd⟩,
    List.takeWhile_append_dropWhile.symm⟩
  cases rest with
  | nil => simp at h
  | cons d rest =>
    have hd : d.isDigit = true := by simpa using h
    simp [hd]

section

variable {c after : Cursor} {char : Char} {w : List Char}

theorem exists_isExponent_of_skipExponent (hc : c.rest = char :: w)
    (hchar : char = 'e' ∨ char = 'E') (h : skipExponent c = .ok ((), after)) :
    ∃ exponent, IsExponent exponent ∧ c.rest = exponent ++ after.rest := by
  obtain ⟨_, offset⟩ := c
  obtain rfl := hc
  obtain ⟨_, between, ⟨⟩, h⟩ := bind_eq_ok.mp h
  obtain ⟨sign, _, ⟨⟩, h⟩ := bind_eq_ok.mp h
  have hdigits : ∀ {b : Cursor}, (peek >>= fun o => if o.any Char.isDigit = true then
      modify Cursor.skipDigits else failAhead .invalidNumber : Reader Unit) b = .ok ((), after) →
      ∃ digits, IsDigits digits ∧ b.rest = digits ++ after.rest := by
    intro b h
    obtain ⟨_, _, ⟨⟩, h⟩ := bind_eq_ok.mp h
    split at h
    · next hdigit =>
      cases h
      exact exists_isDigits_of_head hdigit
    · cases h
  dsimp only at h
  split at h
  · next hsign =>
    obtain ⟨_, _, ⟨⟩, h⟩ := bind_eq_ok.mp h
    obtain ⟨digits, hd, hrest⟩ := hdigits h
    cases w with
    | nil => cases hsign
    | cons sign w =>
      have hs : [sign] = [] ∨ [sign] = ['-'] ∨ [sign] = ['+'] := by
        simpa [Cursor.skip, or_comm] using hsign
      exact ⟨_, .intro hchar hs hd, congrArg (char :: sign :: ·) hrest⟩
  · obtain ⟨digits, hd, hrest⟩ := hdigits h
    exact ⟨_, .intro hchar (.inl rfl) hd, congrArg (char :: ·) hrest⟩

theorem rest_of_peek (h : peek c = .ok (some char, after)) : after = c ∧ ∃ w, c.rest = char :: w := by
  obtain ⟨hhead, rfl⟩ := Prod.mk.inj (Except.ok.inj h)
  exact ⟨rfl, List.head?_eq_some_iff.mp hhead⟩

/-- The mark of an exponent was seen next. -/
theorem exists_isExponent_of_peek {between : Cursor} (hpeek : peek c = .ok (some char, between))
    (hchar : char = 'e' ∨ char = 'E') (h : skipExponent between = .ok ((), after)) :
    ∃ exponent, (exponent = [] ∨ IsExponent exponent) ∧ c.rest = exponent ++ after.rest := by
  obtain ⟨rfl, _, hmark⟩ := rest_of_peek hpeek
  obtain ⟨exponent, he, hrest⟩ := exists_isExponent_of_skipExponent hmark hchar h
  exact ⟨exponent, .inr he, hrest⟩

theorem exists_fraction_of_skipFraction (hc : c.rest = '.' :: w)
    (h : skipFraction c = .ok ((), after)) :
    ∃ digits exponent, IsDigits digits ∧ (exponent = [] ∨ IsExponent exponent) ∧
      c.rest = '.' :: digits ++ exponent ++ after.rest := by
  obtain ⟨_, offset⟩ := c
  obtain rfl := hc
  obtain ⟨_, _, ⟨⟩, h⟩ := bind_eq_ok.mp h
  obtain ⟨_, _, ⟨⟩, h⟩ := bind_eq_ok.mp h
  split at h
  · next hdigit =>
    obtain ⟨digits, hd, hrest⟩ := exists_isDigits_of_head hdigit
    obtain ⟨_, between, ⟨⟩, h⟩ := bind_eq_ok.mp h
    obtain ⟨next, _, hpeek, h⟩ := bind_eq_ok.mp h
    have hexponent : ∃ exponent, (exponent = [] ∨ IsExponent exponent) ∧
        (Cursor.skipDigits (Cursor.skip ⟨'.' :: w, offset⟩)).rest = exponent ++ after.rest := by
      split at h
      · exact exists_isExponent_of_peek hpeek (.inl rfl) h
      · exact exists_isExponent_of_peek hpeek (.inr rfl) h
      · cases h
        cases hpeek
        exact ⟨[], .inl rfl, rfl⟩
    obtain ⟨exponent, he, hafter⟩ := hexponent
    refine ⟨digits, exponent, hd, he, ?_⟩
    rw [List.append_assoc, ← hafter]
    exact congrArg ('.' :: ·) hrest
  · cases h

/-- What is skipped before the rest of a number is an integer part. -/
theorem exists_isIntegerPart {first : Option Char} {next : Unit → Reader Unit}
    (hfirst : first = c.rest.head?)
    (h : (if (first == some '0') = true then eat >>= fun _ => peek >>= fun o =>
        if o.any Char.isDigit = true then failAhead .invalidNumber >>= next else next ()
      else if first.any Char.isDigit = true then modify Cursor.skipDigits >>= next
      else failAhead .invalidNumber >>= next) c = .ok ((), after)) :
    ∃ whole between, IsIntegerPart whole ∧ c.rest = whole ++ between.rest ∧
      next () between = .ok ((), after) := by
  subst hfirst
  split at h
  · next hzero =>
    obtain ⟨_, hzero⟩ := List.head?_eq_some_iff.mp (beq_iff_eq.mp hzero)
    obtain ⟨_, between, ⟨⟩, h⟩ := bind_eq_ok.mp h
    obtain ⟨_, _, ⟨⟩, h⟩ := bind_eq_ok.mp h
    split at h
    · cases h
    · exact ⟨['0'], c.skip, .inl rfl, by simp [Cursor.skip, hzero], h⟩
  split at h
  · next hzero hdigit =>
    obtain ⟨digits, hd, hrest⟩ := exists_isDigits_of_head hdigit
    obtain ⟨_, between, ⟨⟩, h⟩ := bind_eq_ok.mp h
    refine ⟨digits, c.skipDigits, .inr ⟨hd, fun hhead => hzero ?_⟩, hrest, h⟩
    rw [hrest, List.head?_append, hhead]
    rfl
  · cases h

/-- What is skipped of a number, after a sign or none. -/
theorem exists_isNumber_of_skipUnsigned (h : skipUnsigned c = .ok ((), after)) :
    ∃ number, (∀ sign, sign = [] ∨ sign = ['-'] → IsNumber (sign ++ number)) ∧
      c.rest = number ++ after.rest := by
  obtain ⟨first, _, ⟨⟩, h⟩ := bind_eq_ok.mp h
  obtain ⟨whole, between, hw, hrest, hnext⟩ := exists_isIntegerPart rfl h
  obtain ⟨next, _, hpeek, h⟩ := bind_eq_ok.mp hnext
  clear hnext
  have htail : ∃ fraction exponent,
      (fraction = [] ∨ ∃ digits, IsDigits digits ∧ fraction = '.' :: digits) ∧
        (exponent = [] ∨ IsExponent exponent) ∧
        between.rest = fraction ++ exponent ++ after.rest := by
    split at h
    · obtain ⟨rfl, _, hpoint⟩ := rest_of_peek hpeek
      obtain ⟨digits, exponent, hd, he, htail⟩ := exists_fraction_of_skipFraction hpoint h
      exact ⟨_, exponent, .inr ⟨digits, hd, rfl⟩, he, htail⟩
    · obtain ⟨exponent, he, htail⟩ := exists_isExponent_of_peek hpeek (.inl rfl) h
      exact ⟨[], exponent, .inl rfl, he, htail⟩
    · obtain ⟨exponent, he, htail⟩ := exists_isExponent_of_peek hpeek (.inr rfl) h
      exact ⟨[], exponent, .inl rfl, he, htail⟩
    · cases h
      cases hpeek
      exact ⟨[], [], .inl rfl, .inl rfl, rfl⟩
  obtain ⟨fraction, exponent, hf, he, htail⟩ := htail
  refine ⟨whole ++ fraction ++ exponent, fun sign hs => ?_, by rw [hrest, htail]; simp⟩
  simpa using IsNumber.intro hs hw hf he

end

/-! ## Exchanging what comes next -/

/-- What comes next is not told apart: the next character is the same, or there was none and no
number goes on with what there is now. -/
def SameNext (rest rest' : List Char) : Prop :=
  rest.head? = rest'.head? ∨ rest = [] ∧ EndsNumber rest'

/-- What the reader makes of a text of at least `k` characters depends on what it takes of the text
and on what comes next. -/
def Exchanges (k : Nat) (r : Reader α) : Prop :=
  ∀ c a after, k ≤ c.rest.length → r c = .ok (a, after) → ∃ u, c.rest = u ++ after.rest ∧
    ∀ rest' offset', SameNext after.rest rest' →
      ∃ next, r ⟨u ++ rest', offset'⟩ = .ok (a, ⟨rest', next⟩)

section

variable {rest rest' u w : List Char} {char : Char}

theorem SameNext.append (h : SameNext rest rest') (u : List Char) :
    SameNext (u ++ rest) (u ++ rest') := by
  cases u with
  | nil => exact h
  | cons char u => exact .inl rfl

theorem SameNext.head (h : SameNext rest rest') (hw : char :: w = u ++ rest) :
    (u ++ rest').head? = some char := by
  cases u with
  | nil =>
    obtain rfl : rest = char :: w := hw.symm
    exact (h.resolve_right (by simp)).symm
  | cons first u =>
    cases hw
    rfl

end

section

variable {k : Nat} {m m' : Reader α} {f : α → Reader β}

theorem exchanges_pure (a : α) : Exchanges k (Pure.pure a) := by
  rintro c _ _ - ⟨⟩
  exact ⟨[], rfl, fun _ offset' _ => ⟨offset', rfl⟩⟩

theorem Fails.exchanges (h : Fails m) : Exchanges k m :=
  fun c a after _ hm => absurd hm (h c a after)

theorem Exchanges.ahead (h : Exchanges 0 m) : Exchanges k m :=
  fun c a after _ => h c a after (Nat.zero_le _)

theorem Exchanges.congr (h : Exchanges k m)
    (hm : ∀ c a after, m' c = .ok (a, after) ↔ m c = .ok (a, after)) : Exchanges k m' := by
  intro c a after hk hrun
  obtain ⟨u, hu, hswap⟩ := h c a after hk ((hm c a after).mp hrun)
  refine ⟨u, hu, fun rest' offset' hnext => ?_⟩
  obtain ⟨next, hrun'⟩ := hswap rest' offset' hnext
  exact ⟨next, (hm _ _ _).mpr hrun'⟩

theorem Exchanges.bind (h : Exchanges k m) (hf : ∀ a, Exchanges 0 (f a)) :
    Exchanges k (m >>= f) := by
  intro c b after hk hrun
  obtain ⟨a, between, hm, hb⟩ := bind_eq_ok.mp hrun
  obtain ⟨u, hu, hswap⟩ := h c a between hk hm
  obtain ⟨u', hu', hswap'⟩ := hf a between b after (Nat.zero_le _) hb
  refine ⟨u ++ u', by rw [hu, hu', List.append_assoc], fun rest' offset' hnext => ?_⟩
  obtain ⟨next, hm'⟩ := hswap (u' ++ rest') offset' (hu' ▸ hnext.append u')
  obtain ⟨next', hb'⟩ := hswap' rest' next hnext
  exact ⟨next', bind_eq_ok.mpr ⟨a, _, by rw [List.append_assoc, hm'], hb'⟩⟩

theorem exchanges_eat_bind {f : Unit → Reader β} (h : Exchanges 0 (f ())) :
    Exchanges 1 (eat >>= f) := by
  rintro ⟨_ | ⟨char, w⟩, offset⟩ b after hk hrun
  · cases hk
  · obtain ⟨u, hu, hswap⟩ := h _ b after (Nat.zero_le _) hrun
    exact ⟨char :: u, congrArg (char :: ·) hu, fun rest' offset' => hswap rest' _⟩

/-- A character may be skipped or not. -/
theorem exchanges_ite_eat {f : Unit → Reader β} {p : Prop} [Decidable p]
    (h : Exchanges 0 (f ())) : Exchanges 1 (if p then eat >>= f else f ()) := by
  split
  · exact exchanges_eat_bind h
  · exact h.ahead

/-- Where the text may end, whatever ends a number is taken for its end. -/
theorem exchanges_peek_bind {f : Option Char → Reader β}
    (hnone : ∀ offset b after, f none ⟨[], offset⟩ = .ok (b, after) →
      Exchanges 0 (f none) ∧ ∀ rest, EndsNumber rest → f rest.head? = f none)
    (hsome : ∀ char, Exchanges 1 (f (some char))) : Exchanges 0 (peek >>= f) := by
  rintro ⟨_ | ⟨char, w⟩, offset⟩ b after - hrun
  · obtain ⟨hnone, hend⟩ := hnone offset b after hrun
    obtain ⟨u, hu, hswap⟩ := hnone _ b after (Nat.zero_le _) hrun
    obtain ⟨rfl, hafter⟩ := List.append_eq_nil_iff.mp hu.symm
    refine ⟨[], hu, fun rest' offset' hnext => ?_⟩
    have hhead : f rest'.head? = f none := by
      rcases hnext with hhead | ⟨-, hends⟩
      · rw [← hhead, hafter]
        rfl
      · exact hend rest' hends
    obtain ⟨next, hrun'⟩ := hswap rest' offset' hnext
    exact ⟨next, (congrFun hhead _).trans hrun'⟩
  · obtain ⟨u, hu, hswap⟩ := hsome char _ b after (by simp) hrun
    refine ⟨u, hu, fun rest' offset' hnext => ?_⟩
    obtain ⟨next, hrun'⟩ := hswap rest' offset' hnext
    exact ⟨next, (congrFun (congrArg f (hnext.head hu)) _).trans hrun'⟩

end

/-! ## Numbers -/

/-- Where the first reader gives a result, the second ends at the same character. -/
def EndsLike (r : Reader α) (r' : Reader Unit) : Prop :=
  ∀ c a after, r c = .ok (a, after) → r' c = .ok ((), after)

/-- What is read may be followed by something else, and the second reader skips it. -/
structure Scans (k : Nat) (r : Reader α) (r' : Reader Unit) : Prop where
  exchanges : Exchanges k r
  skips : EndsLike r r'

section

variable {k : Nat} {f : Unit → Reader α} {f' : Unit → Reader Unit}

theorem scans_pure (a : α) : Scans k (Pure.pure a) (Pure.pure ()) where
  exchanges := exchanges_pure a
  skips := by
    rintro c _ _ ⟨⟩
    rfl

theorem Fails.scans {r : Reader α} (h : Fails r) (r' : Reader Unit) : Scans k r r' :=
  ⟨h.exchanges, fun c a after heq => absurd heq (h c a after)⟩

theorem Scans.ahead {r : Reader α} {r' : Reader Unit} (h : Scans 0 r r') : Scans k r r' :=
  ⟨h.exchanges.ahead, h.skips⟩

theorem scans_eat_bind (h : Scans 0 (f ()) (f' ())) : Scans 1 (eat >>= f) (eat >>= f') where
  exchanges := exchanges_eat_bind h.exchanges
  skips c := h.skips c.skip

theorem scans_ite_eat {p : Prop} [Decidable p] (h : Scans 0 (f ()) (f' ())) :
    Scans 1 (if p then eat >>= f else f ()) (if p then eat >>= f' else f' ()) := by
  split
  · exact scans_eat_bind h
  · exact h.ahead

end

theorem scans_peek_bind {f : Option Char → Reader α} {f' : Option Char → Reader Unit}
    (hnone : ∀ offset a after, f none ⟨[], offset⟩ = .ok (a, after) →
      Scans 0 (f none) (f' none) ∧ ∀ rest, EndsNumber rest → f rest.head? = f none)
    (hsome : ∀ char, Scans 1 (f (some char)) (f' (some char))) :
    Scans 0 (peek >>= f) (peek >>= f') where
  exchanges := exchanges_peek_bind
    (fun offset a after h => (hnone offset a after h).imp_left Scans.exchanges)
    fun char => (hsome char).exchanges
  skips := by
    rintro ⟨_ | ⟨char, w⟩, offset⟩ a after h
    · exact (hnone offset a after h).1.skips _ a after h
    · exact (hsome char).skips _ a after h

theorem skipDigits_cons {char : Char} (h : char.isDigit = true) (w : List Char) (offset : Nat) :
    Cursor.skipDigits ⟨char :: w, offset⟩ = Cursor.skipDigits ⟨w, offset + 1⟩ := by
  simp only [Cursor.skipDigits, List.dropWhile_cons_of_pos h, List.takeWhile_cons_of_pos h,
    List.length_cons, Nat.add_assoc, Nat.add_comm 1]

theorem skipDigits_of_not {char : Char} (h : ¬ char.isDigit = true) (w : List Char)
    (offset : Nat) : Cursor.skipDigits ⟨char :: w, offset⟩ = ⟨char :: w, offset⟩ := by
  simp [Cursor.skipDigits, h]

/-- What a scan of digits gives depends on the digits that come next, and it goes past them. -/
theorem wholeDigits_eq (significand dropped : Nat) (w : List Char) (offset offset' : Nat) :
    wholeDigits significand dropped w offset =
      ((wholeDigits significand dropped (w.takeWhile Char.isDigit) offset').1,
        (wholeDigits significand dropped (w.takeWhile Char.isDigit) offset').2.1,
        Cursor.skipDigits ⟨w, offset⟩) := by
  fun_induction wholeDigits significand dropped w offset generalizing offset' with
  | case1 => rfl
  | case2 _ _ c rest offset hc hfits ih =>
    rw [List.takeWhile_cons_of_pos hc, wholeDigits, if_pos hc, if_pos hfits, skipDigits_cons hc]
    exact ih _
  | case3 _ _ c rest offset hc hfits ih =>
    rw [List.takeWhile_cons_of_pos hc, wholeDigits, if_pos hc, if_neg hfits, skipDigits_cons hc]
    exact ih _
  | case4 _ _ c rest offset hc =>
    rw [List.takeWhile_cons_of_neg hc, skipDigits_of_not hc]
    rfl

theorem placeDigits_eq (significand places : Nat) (full : Bool) (w : List Char)
    (offset offset' : Nat) :
    placeDigits significand places full w offset =
      ((placeDigits significand places full (w.takeWhile Char.isDigit) offset').1,
        (placeDigits significand places full (w.takeWhile Char.isDigit) offset').2.1,
        (placeDigits significand places full (w.takeWhile Char.isDigit) offset').2.2.1,
        Cursor.skipDigits ⟨w, offset⟩) := by
  fun_induction placeDigits significand places full w offset generalizing offset' with
  | case1 => rfl
  | case2 _ _ _ c rest offset hc hfits ih =>
    rw [List.takeWhile_cons_of_pos hc, placeDigits, if_pos hc, if_pos hfits, skipDigits_cons hc]
    exact ih _
  | case3 _ _ _ c rest offset hc hfits ih =>
    rw [List.takeWhile_cons_of_pos hc, placeDigits, if_pos hc, if_neg hfits, skipDigits_cons hc]
    exact ih _
  | case4 _ _ _ c rest offset hc =>
    rw [List.takeWhile_cons_of_neg hc, skipDigits_of_not hc]
    rfl

/-- The digits of an exponent are read to their end, unless it is too large. -/
theorem exists_exponentDigits_eq (exponent : Nat) (w : List Char) (offset offset' : Nat) :
    ∃ next, exponentDigits exponent w offset =
        ((exponentDigits exponent (w.takeWhile Char.isDigit) offset').1,
          (exponentDigits exponent (w.takeWhile Char.isDigit) offset').2.1, next) ∧
      next.skipDigits = Cursor.skipDigits ⟨w, offset⟩ ∧
      ((exponentDigits exponent (w.takeWhile Char.isDigit) offset').2.1 = false →
        next = Cursor.skipDigits ⟨w, offset⟩) := by
  fun_induction exponentDigits exponent w offset generalizing offset' with
  | case1 => exact ⟨_, rfl, rfl, fun _ => rfl⟩
  | case2 _ c rest offset hc hfits ih =>
    rw [List.takeWhile_cons_of_pos hc, exponentDigits, if_pos hc, if_pos hfits, skipDigits_cons hc]
    exact ih _
  | case3 _ c rest offset hc hfits =>
    rw [List.takeWhile_cons_of_pos hc, exponentDigits, if_pos hc, if_neg hfits, skipDigits_cons hc]
    exact ⟨_, rfl, rfl, nofun⟩
  | case4 _ c rest offset hc =>
    rw [List.takeWhile_cons_of_neg hc, skipDigits_of_not hc]
    exact ⟨_, rfl, skipDigits_of_not hc _ _, fun _ => rfl⟩

/-- The digits that come next. -/
def digits : Reader (List Char) := fun c => .ok (c.rest.takeWhile Char.isDigit, c.skipDigits)

theorem isDigit_of_sameNext {w rest : List Char}
    (h : SameNext (w.dropWhile Char.isDigit) rest) : ∀ c ∈ rest.head?, c.isDigit = false := by
  intro c hc
  rcases h with hhead | ⟨-, hends⟩
  · have hnot := List.head?_dropWhile_not Char.isDigit w
    rw [hhead, Option.mem_def.mp hc] at hnot
    exact hnot
  · exact (hends c hc).1

theorem exchanges_digits : Exchanges 0 digits := by
  rintro ⟨w, offset⟩ _ _ - ⟨⟩
  refine ⟨w.takeWhile Char.isDigit, List.takeWhile_append_dropWhile.symm, ?_⟩
  intro rest' offset' hnext
  have hdigits : ∀ c ∈ w.takeWhile Char.isDigit, c.isDigit = true := fun c => List.mem_takeWhile_imp
  obtain ⟨htake, hdrop⟩ :
      rest'.takeWhile Char.isDigit = [] ∧ rest'.dropWhile Char.isDigit = rest' := by
    cases rest' with
    | nil => exact ⟨rfl, rfl⟩
    | cons c rest' => simp [isDigit_of_sameNext hnext c rfl]
  simp [digits, Cursor.skipDigits, List.takeWhile_append_of_pos hdigits,
    List.dropWhile_append_of_pos hdigits, htake, hdrop]

theorem exchanges_skipDigits : Exchanges 0 (modify Cursor.skipDigits) := by
  have h : Exchanges 0 (digits >>= fun _ => Pure.pure ()) :=
    exchanges_digits.bind fun _ => exchanges_pure ()
  exact h

/-- Digits that are made something of are skipped. -/
theorem scans_get_bind {h : Cursor → Reader α} {r' : Reader Unit}
    (hread : ∀ w, ∃ r, (∀ c, c.rest.takeWhile Char.isDigit = w → ∀ a after,
      h c c = .ok (a, after) ↔ r c.skipDigits = .ok (a, after)) ∧ Scans 0 r r') :
    Scans 0 (get >>= h) (modify Cursor.skipDigits >>= fun _ => r') := by
  choose r hr hscans using hread
  refine ⟨(exchanges_digits.bind fun w => (hscans w).exchanges).congr
    fun c a after => hr _ c rfl a after, fun c a after hrun => ?_⟩
  exact (hscans _).skips _ a after ((hr _ c rfl a after).mp hrun)

/-- As before, where the skipper makes sure that there are digits, and nothing is read without. -/
theorem scans_digits_bind {h : Cursor → Reader α} {r' : Reader Unit} {what : Malformed}
    (hread : ∀ w, ∃ r, (∀ c, c.rest.takeWhile Char.isDigit = w → ∀ a after,
      h c c = .ok (a, after) ↔ r c.skipDigits = .ok (a, after)) ∧ Scans 0 r r' ∧
        (w = [] → Fails r)) :
    Scans 0 (get >>= h) (peek >>= fun first => if first.any Char.isDigit = true then
      modify Cursor.skipDigits >>= fun _ => r' else failAhead what) := by
  have hget : Scans 0 (get >>= h) (modify Cursor.skipDigits >>= fun _ => r') :=
    scans_get_bind fun w => by
      obtain ⟨r, hr, hscans, -⟩ := hread w
      exact ⟨r, hr, hscans⟩
  refine ⟨hget.exchanges, fun c a after hrun => ?_⟩
  obtain ⟨r, hr, hscans, hempty⟩ := hread (c.rest.takeWhile Char.isDigit)
  have hafter := (hr c rfl a after).mp hrun
  have hdigit : c.rest.head?.any Char.isDigit = true := by
    by_contra hnone
    refine hempty ?_ _ a after hafter
    cases hrest : c.rest with
    | nil => rfl
    | cons char w => simpa [hrest] using hnone
  show (if c.rest.head?.any Char.isDigit = true then _ else _ : Reader Unit) c = _
  rw [if_pos hdigit]
  exact hscans.skips _ a after hafter

theorem scans_real {k : Nat} (negative : Bool) (significand : Nat) (exponent : Int) :
    Scans k (real negative significand exponent) (Pure.pure ()) := by
  unfold real
  split
  · exact scans_pure _
  · exact (fails_failHere _).scans _

theorem scans_exponent (negative : Bool) (significand : Nat) (shift : Int) :
    Scans 1 (exponent negative significand shift) skipExponent := by
  refine scans_eat_bind (scans_peek_bind (fun _ _ _ => nofun) fun sign => ?_)
  refine scans_ite_eat (scans_peek_bind (fun _ _ _ => nofun) fun first => ?_)
  dsimp only
  split
  · exact (fails_failAhead _).scans _
  next hdigit =>
  have hdigit : first.isDigit = true := by simpa using hdigit
  rw [Option.any_some, if_pos hdigit]
  refine Scans.ahead (scans_get_bind fun w => ?_ :
    Scans 0 _ (modify Cursor.skipDigits >>= fun _ => Pure.pure ()))
  -- whether the exponent is too large can be told from its digits
  have hrun := fun c : Cursor => exists_exponentDigits_eq 0 c.rest c.offset 0
  generalize hlarge : (exponentDigits 0 w 0).2.1 = tooLarge
  cases tooLarge with
  | false =>
    refine ⟨real negative significand (if (some sign == some '-') = true then
      shift - (exponentDigits 0 w 0).1 else shift + (exponentDigits 0 w 0).1),
      fun c hc a after => ?_, scans_real _ _ _⟩
    obtain ⟨next, hnext, -, hall⟩ := hrun c
    rw [hc, hlarge] at hnext hall
    rw [hnext, hall rfl]
    exact Iff.rfl
  | true =>
    by_cases hrange : (decide (significand ≠ 0) && some sign != some '-') = true
    · refine ⟨failHere .numberOutOfRange, fun c hc a after => ?_, (fails_failHere _).scans _⟩
      obtain ⟨next, hnext, -⟩ := hrun c
      rw [hc, hlarge] at hnext
      simp only [hnext, set_bind_apply, hrange]
      exact ⟨nofun, nofun⟩
    · refine ⟨Pure.pure (.real (if negative = true then -0.0 else 0.0)), fun c hc a after => ?_,
        scans_pure _⟩
      obtain ⟨next, hnext, hskip, -⟩ := hrun c
      rw [hc, hlarge] at hnext
      simp only [hnext, set_bind_apply, hrange]
      rw [← show next.skipDigits = c.skipDigits from hskip]
      exact Iff.rfl

theorem scans_fraction (negative : Bool) (significand : Nat) (shift : Int) :
    Scans 1 (fraction negative significand shift) skipFraction := by
  refine scans_eat_bind (scans_digits_bind fun w => ?_)
  constructor
  refine ⟨fun c hc a after => ?_, ?_, ?_⟩
  · rw [placeDigits_eq _ _ _ _ _ 0, hc]
    dsimp only
    rw [set_bind_apply]
  · split
    · refine Fails.scans (Fails.bind (fun next => ?_) _) _
      split
      · exact fails_failAhead _
      · exact fails_failAhead _
    refine scans_peek_bind (fun _ _ _ _ => ⟨scans_real _ _ _, fun rest hends => ?_⟩) fun next => ?_
    · cases rest with
      | nil => rfl
      | cons c rest => simp [hends c rfl]
    · split
      · next heq =>
        cases heq
        exact scans_exponent _ _ _
      · next heq =>
        cases heq
        exact scans_exponent _ _ _
      · next he hE => simpa [he, hE] using scans_real _ _ _
  · rintro rfl
    refine Fails.bind (fun next => ?_) _
    split
    · exact fails_failAhead _
    · exact fails_failAhead _

/-- The integer part is skipped, whatever reads the rest of the number. -/
theorem scans_integerPart {negative : Bool} {next : Unit → Reader Unit}
    (hnext : ∀ significand dropped, Scans 0 (afterWhole negative significand dropped) (next ())) :
    Scans 0 (unsignedNumber negative) (peek >>= fun first =>
      if (first == some '0') = true then eat >>= fun _ => peek >>= fun o =>
        if o.any Char.isDigit = true then failAhead .invalidNumber >>= next else next ()
      else if first.any Char.isDigit = true then modify Cursor.skipDigits >>= next
      else failAhead .invalidNumber >>= next) := by
  refine scans_peek_bind (fun _ _ _ => nofun) fun first => ?_
  split
  · contradiction
  · next heq =>
    cases heq
    rw [if_pos (beq_self_eq_true _)]
    refine scans_eat_bind (scans_peek_bind ?_ fun o => ?_)
    · refine fun _ _ _ _ => ⟨hnext 0 0, fun rest hends => ?_⟩
      cases rest with
      | nil => rfl
      | cons c rest => simp [hends c rfl]
    · dsimp only
      split
      · exact (fails_failAhead _).scans _
      · next hdigit =>
        rw [Option.any_some, if_neg hdigit]
        exact (hnext 0 0).ahead
  · next first' hzero heq =>
    cases heq
    split
    · exact (fails_failAhead _).scans _
    next hdigit =>
    have hdigit : first.isDigit = true := by simpa using hdigit
    rw [if_neg (by simpa using hzero), Option.any_some, if_pos hdigit]
    refine (scans_get_bind fun w => ?_).ahead
    constructor
    constructor
    · intro c hc a after
      rw [wholeDigits_eq _ _ _ _ 0, hc]
      dsimp only
      rw [set_bind_apply]
    · exact hnext _ _

/-- A number that is read is skipped, and may be followed by anything that ends it. -/
theorem scans_unsignedNumber (negative : Bool) :
    Scans 0 (unsignedNumber negative) skipUnsigned := by
  refine scans_integerPart fun significand dropped => ?_
  have hwhole : ∀ k, Scans k (if dropped ≠ 0 then real negative significand dropped
      else if (!negative) = true then Pure.pure (.integer significand)
      else if (decide (0 < significand) && decide (significand ≤ UInt64.size / 2)) = true then
        Pure.pure (.integer (-significand))
      else Pure.pure (.real (-significand.toUInt64.toFloat))) (Pure.pure ()) := by
    intro k
    split_ifs
    · exact scans_real _ _ _
    · exact scans_pure _
    · exact scans_pure _
    · exact scans_pure _
  refine scans_peek_bind (fun _ _ _ _ => ⟨hwhole 0, fun rest hends => ?_⟩) fun next => ?_
  · cases rest with
    | nil => rfl
    | cons c rest => simp [hends c rfl]
  · split
    · next heq =>
      cases heq
      exact scans_fraction _ _ _
    · next heq =>
      cases heq
      exact scans_exponent _ _ _
    · next heq =>
      cases heq
      exact scans_exponent _ _ _
    · next hpoint he hE =>
      have hread := hwhole 1
      generalize (if dropped ≠ 0 then _ else _ : Reader Number) = read at hread ⊢
      simpa [hpoint, he, hE] using hread

/-! ## Scalars -/

theorem skipString_of_string {c after : Cursor} {text : String} (h : string c = .ok (text, after)) :
    skipString c = .ok ((), after) := by
  unfold skipString
  rw [skipStringBody_of_stringBody h]
  rfl

/-- Skips a value that stands in no brackets and begins with the given character. -/
def skipScalar (char : Char) : Reader Unit :=
  if char = 'n' then eat >>= fun _ => letters ['u', 'l', 'l']
  else if char = 't' then eat >>= fun _ => letters ['r', 'u', 'e']
  else if char = 'f' then eat >>= fun _ => letters ['a', 'l', 's', 'e']
  else if char = '-' then eat >>= fun _ => skipUnsigned
  else if char = '"' then skipString
  else if char.isDigit then skipUnsigned
  else failAhead .expectedValue

section

variable {c after : Cursor} {char : Char}

theorem skipString_eq_ok (h : skipString c = .ok ((), after)) :
    skipStringBody c.skip.rest c.skip.offset = .ok after := by
  unfold skipString at h
  cases hbody : skipStringBody c.skip.rest c.skip.offset with
  | error fault =>
    rw [hbody] at h
    cases h
  | ok next =>
    rw [hbody] at h
    cases h
    rfl

theorem exists_isString_of_skipString {w : List Char} (hc : c.rest = '"' :: w)
    (h : skipString c = .ok ((), after)) : ∃ v, IsString v ∧ c.rest = v ++ after.rest := by
  obtain ⟨_, offset⟩ := c
  obtain rfl := hc
  obtain ⟨units, hunits, hw, -⟩ := exists_units_of_skipStringBody (skipString_eq_ok h)
  exact ⟨_, .intro hunits, by simpa [Cursor.skip] using hw⟩

/-- A scalar that is skipped is a value. -/
theorem exists_isValue_of_skipScalar {w : List Char} (hc : c.rest = char :: w)
    (h : skipScalar char c = .ok ((), after)) : ∃ v, IsValue v ∧ c.rest = v ++ after.rest := by
  have hskip : c.skip.rest = w := by simp [Cursor.skip, hc]
  have hword : ∀ {letters' : List Char},
      (eat >>= fun _ => letters letters') c = .ok ((), after) →
      c.rest = char :: letters' ++ after.rest := by
    intro letters' h
    obtain ⟨_, _, ⟨⟩, h⟩ := bind_eq_ok.mp h
    rw [hc, ← hskip, rest_of_letters h, List.cons_append]
  unfold skipScalar at h
  split_ifs at h with hn ht hf hminus hquote hdigit
  · exact ⟨_, .null, by simpa [hn] using hword h⟩
  · exact ⟨_, .true, by simpa [ht] using hword h⟩
  · exact ⟨_, .false, by simpa [hf] using hword h⟩
  · obtain ⟨_, _, ⟨⟩, h⟩ := bind_eq_ok.mp h
    obtain ⟨number, hnumber, hrest⟩ := exists_isNumber_of_skipUnsigned h
    refine ⟨_, .number (hnumber ['-'] (.inr rfl)), ?_⟩
    rw [hc, ← hskip, hrest, hminus]
    rfl
  · obtain ⟨v, hv, hrest⟩ := exists_isString_of_skipString (hquote ▸ hc) h
    exact ⟨v, .string hv, hrest⟩
  · obtain ⟨number, hnumber, hrest⟩ := exists_isNumber_of_skipUnsigned h
    exact ⟨_, .number (hnumber [] (.inl rfl)), hrest⟩
  · cases h

end

end Reader

end Json

end SchemaGrammar
