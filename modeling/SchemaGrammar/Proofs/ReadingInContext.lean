import SchemaGrammar.Proofs.LocalReading

/-!
# Reading a value inside a longer text

A value that a text holds by itself is also read where more text follows, as long as what follows
cannot go on with a number: reading looks one character ahead, and only a number depends on whether
there is one.

The depth limit is a condition on the value that is read. A smaller limit makes reading fail where
the value has more brackets open at once, and changes nothing elsewhere.

## Main definitions

* `Json.Reader.Restricts`: a reader gives those results of another that have a property.

## Main results

* `Json.Reader.value_append`: a value is read in the same way where more text follows.
* `Json.Reader.restricts_value`: a smaller limit admits the values of smaller depth.
-/

namespace SchemaGrammar

namespace Json

namespace Reader

variable {α β : Type}

/-- **A value is read in the same way where more text follows**, if that cannot go on with a
number. -/
theorem value_append {ext : List Char} (he : EndsNumber ext) {depth : Nat} {c after : Cursor}
    {v : Value} (h : value depth c = .ok (v, after)) (offset : Nat) :
    ∃ next, value depth ⟨c.rest ++ ext, offset⟩ = .ok (v, ⟨after.rest ++ ext, next⟩) := by
  obtain ⟨u, hu, hswap⟩ := exchanges_value depth c v after (Nat.zero_le _) h
  have hnext : SameNext after.rest (after.rest ++ ext) := by
    cases after.rest with
    | nil => exact .inr ⟨rfl, he⟩
    | cons char rest => exact .inl rfl
  rw [hu, List.append_assoc]
  exact hswap _ offset hnext

/-! ## The depth limit -/

/-- The results of `r` are those of `r'` that have a property. -/
def Restricts (p : α → Prop) (r r' : Reader α) : Prop :=
  ∀ c a after, r c = .ok (a, after) ↔ r' c = .ok (a, after) ∧ p a

section

variable {p : α → Prop} {q : β → Prop} {m m' : Reader α} {f f' : α → Reader β}

theorem restricts_self (h : ∀ c a after, m c = .ok (a, after) → p a) : Restricts p m m :=
  fun c a after => ⟨fun heq => ⟨heq, h c a after heq⟩, And.left⟩

theorem restricts_pure {a : α} (h : p a) : Restricts p (Pure.pure a) (Pure.pure a) := by
  refine restricts_self ?_
  rintro c _ _ ⟨⟩
  exact h

theorem Fails.restricts (h : Fails m) (h' : ∀ c a after, m' c = .ok (a, after) → ¬ p a) :
    Restricts p m m' :=
  fun c a after =>
    ⟨fun heq => absurd heq (h c a after), fun heq => absurd heq.2 (h' c a after heq.1)⟩

theorem Restricts.within (h : Restricts p m m') (step : Step) :
    Restricts p (Reader.within step m) (Reader.within step m') := by
  intro c a after
  rw [within_eq_ok, within_eq_ok]
  exact h c a after

theorem restricts_bind (m : Reader α) (h : ∀ a, Restricts q (f a) (f' a)) :
    Restricts q (m >>= f) (m >>= f') := by
  intro c b after
  simp only [bind_eq_ok, fun a between => h a between b after]
  constructor
  · rintro ⟨a, between, hm, hb, hq⟩
    exact ⟨⟨a, between, hm, hb⟩, hq⟩
  · rintro ⟨⟨a, between, hm, hb⟩, hq⟩
    exact ⟨a, between, hm, hb, hq⟩

/-- A restricted reader may come first if what follows shows its result. -/
theorem Restricts.bind (h : Restricts p m m') (hf : ∀ a, p a → Restricts q (f a) (f' a))
    (hshow : ∀ a c b after, f' a c = .ok (b, after) → q b → p a) :
    Restricts q (m >>= f) (m' >>= f') := by
  intro c b after
  rw [bind_eq_ok, bind_eq_ok]
  constructor
  · rintro ⟨a, between, hm, hb⟩
    obtain ⟨hm', hp⟩ := (h c a between).mp hm
    obtain ⟨hb', hq⟩ := (hf a hp between b after).mp hb
    exact ⟨⟨a, between, hm', hb'⟩, hq⟩
  · rintro ⟨⟨a, between, hm', hb'⟩, hq⟩
    have hp := hshow a between b after hb' hq
    exact ⟨a, between, (h c a between).mpr ⟨hm', hp⟩, (hf a hp between b after).mpr ⟨hb', hq⟩⟩

/-- What is read is given a form. -/
theorem Restricts.map (h : Restricts p m m') {g : α → β} (hg : ∀ a, q (g a) ↔ p a) :
    Restricts q (m >>= fun a => Pure.pure (g a)) (m' >>= fun a => Pure.pure (g a)) := by
  refine h.bind (fun a hp => restricts_pure ((hg a).mpr hp)) ?_
  rintro a c _ _ ⟨⟩ hq
  exact (hg a).mp hq

/-- What is read is followed by something else. -/
theorem Restricts.followed {k : Reader β} (h : Restricts p m m') :
    Restricts p (m >>= fun a => k >>= fun _ => Pure.pure a)
      (m' >>= fun a => k >>= fun _ => Pure.pure a) := by
  refine h.bind (fun a hp => restricts_bind k fun _ => restricts_pure hp) ?_
  intro a c b after heq hb
  obtain ⟨_, _, -, ⟨⟩⟩ := bind_eq_ok.mp heq
  exact hb

end

section

variable {p : α → Prop} {read read' : Reader α}

theorem mem_of_elements {steps : Steps} {index : Nat} {done items : List α} {c after : Cursor}
    (h : elements read steps index done c = .ok (items, after)) {x : α} (hx : x ∈ done) :
    x ∈ items := by
  induction steps generalizing index done c with
  | nil => cases h
  | cons _ steps ih =>
    obtain ⟨more, between, -, h⟩ := bind_eq_ok.mp h
    cases more with
    | true =>
      obtain ⟨item, _, -, h⟩ := bind_eq_ok.mp h
      exact ih h (List.mem_cons_of_mem _ hx)
    | false =>
      cases h
      exact List.mem_reverse.mpr hx

theorem restricts_elements (hread : Restricts p read read') (steps : Steps) (index : Nat)
    {done : List α} (hdone : ∀ x ∈ done, p x) :
    Restricts (fun items => ∀ x ∈ items, p x) (elements read steps index done)
      (elements read' steps index done) := by
  induction steps generalizing index done with
  | nil => exact (fails_failHere _).restricts fun _ _ _ => nofun
  | cons _ steps ih =>
    refine restricts_bind _ fun more => ?_
    split
    · refine (hread.within _).bind (fun item hitem => ?_) fun item c items after heq hall => ?_
      · exact ih _ (List.forall_mem_cons.mpr ⟨hitem, hdone⟩)
      · exact hall item (mem_of_elements heq List.mem_cons_self)
    · exact restricts_pure fun x hx => hdone x (List.mem_reverse.mp hx)

theorem restricts_list (hread : Restricts p read read') :
    Restricts (fun items => ∀ x ∈ items, p x) (list read) (list read') := by
  refine restricts_bind _ fun _ => restricts_bind _ fun steps => ?_
  exact (restricts_elements hread steps 0 (by simp)).followed

theorem mem_of_members {steps : Steps} {first : Bool} {done entries : List (String × α)}
    {c after : Cursor} (h : members read steps first done c = .ok (entries, after))
    {x : String × α} (hx : x ∈ done) : x ∈ entries := by
  induction steps generalizing first done c with
  | nil => cases h
  | cons _ steps ih =>
    obtain ⟨name, between, -, h⟩ := bind_eq_ok.mp h
    cases name with
    | some name =>
      obtain ⟨_, _, -, h⟩ := bind_eq_ok.mp h
      obtain ⟨entry, _, -, h⟩ := bind_eq_ok.mp h
      exact ih h (List.mem_cons_of_mem _ hx)
    | none =>
      cases h
      exact List.mem_reverse.mpr hx

theorem restricts_members (hread : Restricts p read read') (steps : Steps) (first : Bool)
    {done : List (String × α)} (hdone : ∀ x ∈ done, p x.2) :
    Restricts (fun entries => ∀ x ∈ entries, p x.2) (members read steps first done)
      (members read' steps first done) := by
  induction steps generalizing first done with
  | nil => exact (fails_failHere _).restricts fun _ _ _ => nofun
  | cons _ steps ih =>
    refine restricts_bind _ fun name => ?_
    split
    · exact restricts_pure fun x hx => hdone x (List.mem_reverse.mp hx)
    · refine restricts_bind _ fun _ => ?_
      refine (hread.within _).bind (fun entry hentry => ?_) fun entry c entries after heq hall => ?_
      · exact ih _ (List.forall_mem_cons.mpr ⟨hentry, hdone⟩)
      · exact hall _ (mem_of_members heq List.mem_cons_self)

theorem restricts_object (hread : Restricts p read read') :
    Restricts (fun entries => ∀ x ∈ entries, p x.2) (object read) (object read') := by
  refine restricts_bind _ fun _ => restricts_bind _ fun steps => ?_
  exact (restricts_members hread steps true (by simp)).followed

end

end Reader

theorem Value.depth_array_le_iff {items : List Value} {n : Nat} :
    (Value.array items).depth ≤ n + 1 ↔ ∀ x ∈ items, x.depth ≤ n := by
  rw [Value.depth, Nat.add_le_add_iff_right]
  induction items with
  | nil => simp [Value.itemsDepth]
  | cons x items ih => rw [Value.itemsDepth, Nat.max_le, ih, List.forall_mem_cons]

theorem Value.depth_object_le_iff {members : List (String × Value)} {n : Nat} :
    (Value.object members).depth ≤ n + 1 ↔ ∀ x ∈ members, x.2.depth ≤ n := by
  rw [Value.depth, Nat.add_le_add_iff_right]
  induction members with
  | nil => simp [Value.membersDepth]
  | cons x members ih => rw [Value.membersDepth, Nat.max_le, ih, List.forall_mem_cons]

/-- Reads what stands in brackets, which takes one off the limit. -/
def Reader.bracketed {γ : Type} (m : Nat → Reader γ) (g : γ → Value) : Nat → Reader Value
  | 0 => failAhead .tooDeep
  | n + 1 => m n >>= fun a => Pure.pure (g a)

theorem Reader.restricts_bracketed {γ : Type} {m : Nat → Reader γ} {g : γ → Value}
    {p : Nat → γ → Prop} {depth depth' : Nat} (h : depth ≤ depth')
    (hm : ∀ n n', n ≤ n' → n' < depth' → Restricts (p n) (m n) (m n'))
    (hpos : ∀ a, 0 < (g a).depth) (hdepth : ∀ a n, (g a).depth ≤ n + 1 ↔ p n a) :
    Restricts (fun v => v.depth ≤ depth) (bracketed m g depth) (bracketed m g depth') := by
  cases depth with
  | zero =>
    refine (fails_failAhead _).restricts fun c v after heq => ?_
    cases depth' with
    | zero => cases heq
    | succ depth' =>
      obtain ⟨a, _, -, ⟨⟩⟩ := bind_eq_ok.mp heq
      exact Nat.not_le.mpr (hpos a)
  | succ depth =>
    cases depth' with
    | zero => exact absurd h (Nat.not_succ_le_zero depth)
    | succ depth' =>
      exact (hm depth depth' (Nat.le_of_succ_le_succ h) depth'.lt_succ_self).map fun a =>
        hdepth a depth

/-- **A smaller limit admits the values of smaller depth**, and reads them in the same way. -/
theorem Reader.restricts_value {depth depth' : Nat} (h : depth ≤ depth') :
    Restricts (fun v => v.depth ≤ depth) (value depth) (value depth') := by
  induction depth' using Nat.strongRecOn generalizing depth with
  | ind depth' ih =>
    have hscalar : ∀ {γ : Type} (m : Reader γ) (g : γ → Value), (∀ a, (g a).depth = 0) →
        Restricts (fun v => v.depth ≤ depth) (m >>= fun a => Pure.pure (g a))
          (m >>= fun a => Pure.pure (g a)) := by
      intro γ m g hg
      exact restricts_bind m fun a => restricts_pure (by simp [hg])
    unfold value
    refine restricts_bind _ fun next => ?_
    split
    · exact (fails_failAhead _).restricts fun _ _ _ => nofun
    · exact restricts_bind _ fun _ => hscalar _ _ fun _ => rfl
    · exact restricts_bind _ fun _ => hscalar _ _ fun _ => rfl
    · exact restricts_bind _ fun _ => hscalar _ _ fun _ => rfl
    · exact hscalar _ _ fun _ => rfl
    · show Restricts _ (bracketed (fun n => list (value n)) .array depth) (bracketed _ _ depth')
      exact restricts_bracketed h (fun n n' hle hlt => restricts_list (ih n' hlt hle))
        (fun _ => Nat.succ_pos _) fun _ _ => Value.depth_array_le_iff
    · show Restricts _ (bracketed (fun n => object (value n)) .object depth) (bracketed _ _ depth')
      exact restricts_bracketed h (fun n n' hle hlt => restricts_object (ih n' hlt hle))
        (fun _ => Nat.succ_pos _) fun _ _ => Value.depth_object_le_iff
    · split
      · exact hscalar _ _ fun _ => rfl
      · exact (fails_failAhead _).restricts fun _ _ _ => nofun

end Json

end SchemaGrammar
