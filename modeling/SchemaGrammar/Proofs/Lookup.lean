import Mathlib.Data.List.Nodup
import SchemaGrammar.Assoc

/-!
# Looking names up

An entry that is found is in the list, and in a list without repeated names every entry is found.
Inserting a new name adds one entry and leaves the others as they are. Putting the entries of one
list into another hides those of the same name; leaving out names or changing entries can be done
before or after.
-/

namespace SchemaGrammar

namespace Assoc

variable {α β : Type}

theorem mem_of_get? {entries : Assoc α} {key : String} {entry : α}
    (h : entries.get? key = some entry) : (key, entry) ∈ entries := by
  induction entries with
  | nil => simp at h
  | cons head rest ih =>
    obtain ⟨name, old⟩ := head
    rw [get?] at h
    split_ifs at h with hname
    · rw [← hname, Option.some.inj h]
      exact List.mem_cons_self
    · exact List.mem_cons_of_mem _ (ih h)

theorem get?_eq_none_iff {entries : Assoc α} {key : String} :
    entries.get? key = none ↔ key ∉ keys entries := by
  induction entries with
  | nil => simp [keys]
  | cons head rest ih =>
    obtain ⟨name, old⟩ := head
    by_cases hname : name = key
    · simp [get?, keys, hname]
    · have hne : key ≠ name := fun h => hname h.symm
      simp only [get?, hname, if_false, ih]
      simp [keys, hne]

theorem mem_keys_iff {entries : Assoc α} {key : String} :
    key ∈ keys entries ↔ ∃ entry, entries.get? key = some entry := by
  rw [← not_iff_not, ← get?_eq_none_iff, not_exists, Option.eq_none_iff_forall_ne_some]

theorem contains_iff {entries : Assoc α} {key : String} :
    entries.contains key = true ↔ key ∈ keys entries := by
  rw [contains, Option.isSome_iff_exists, mem_keys_iff]

theorem get?_append_of_mem {first : Assoc α} (hn : (keys first).Nodup) {key : String} {entry : α}
    (h : (key, entry) ∈ first) (rest : Assoc α) : get? key (first ++ rest) = some entry := by
  induction first with
  | nil => exact absurd h List.not_mem_nil
  | cons head first ih =>
    obtain ⟨name, old⟩ := head
    obtain ⟨hnew, hn⟩ := List.nodup_cons.mp hn
    rcases List.mem_cons.mp h with heq | h
    · cases heq
      simp [get?]
    · have hne : name ≠ key := fun heq => hnew (heq ▸ List.mem_map.mpr ⟨_, h, rfl⟩)
      simp only [List.cons_append, get?, hne, if_false]
      exact ih hn h

theorem get?_of_mem {entries : Assoc α} (hn : (keys entries).Nodup) {key : String} {entry : α}
    (h : (key, entry) ∈ entries) : entries.get? key = some entry := by
  simpa using get?_append_of_mem hn h []

theorem get?_insert {key : String} {entry : α} {entries : Assoc α} {other : String} :
    get? other (insert key entry entries) =
      if other = key then some entry else get? other entries := by
  split_ifs with h
  · rw [h, get?_insert_self]
  · exact get?_insert_of_ne h entry entries

theorem mem_keys_insert {key other : String} {entry : α} {entries : Assoc α} :
    other ∈ keys (insert key entry entries) ↔ other = key ∨ other ∈ keys entries := by
  rw [keys_insert]
  split_ifs with h
  · exact ⟨.inr, fun hk => hk.elim (fun heq => heq ▸ h) id⟩
  · simp [or_comm]

/-- A new name is added at the end. -/
theorem insert_of_notMem {key : String} {entries : Assoc α} (h : key ∉ keys entries) (entry : α) :
    insert key entry entries = entries ++ [(key, entry)] := by
  induction entries with
  | nil => rfl
  | cons head rest ih =>
    obtain ⟨name, old⟩ := head
    have hne : name ≠ key := fun heq => h (heq ▸ List.mem_cons_self)
    rw [insert, if_neg hne, ih fun hk => h (List.mem_cons_of_mem _ hk), List.cons_append]

theorem nodup_keys_insert {key : String} {entry : α} {entries : Assoc α}
    (h : (keys entries).Nodup) : (keys (insert key entry entries)).Nodup := by
  rw [keys_insert]
  split_ifs with hk
  · exact h
  · exact List.nodup_append.mpr ⟨h, List.nodup_singleton key, fun a ha b hb => by
      rw [List.mem_singleton.mp hb]
      exact fun heq => hk (heq ▸ ha)⟩

theorem mem_of_mem_insert {key : String} {entry : α} {entries : Assoc α} {e : String × α}
    (h : e ∈ insert key entry entries) : e = (key, entry) ∨ e ∈ entries := by
  induction entries with
  | nil => exact .inl (List.mem_singleton.mp h)
  | cons head rest ih =>
    obtain ⟨name, old⟩ := head
    rw [insert] at h
    split_ifs at h with hname
    · rcases List.mem_cons.mp h with heq | h
      · exact .inl (heq.trans (by rw [hname]))
      · exact .inr (List.mem_cons_of_mem _ h)
    · rcases List.mem_cons.mp h with heq | h
      · exact .inr (heq ▸ List.mem_cons_self)
      · exact (ih h).imp_right (List.mem_cons_of_mem _)

theorem insert_of_get? {key : String} {entry : α} {entries : Assoc α}
    (h : get? key entries = some entry) : insert key entry entries = entries := by
  induction entries with
  | nil => cases h
  | cons head rest ih =>
    obtain ⟨name, old⟩ := head
    rw [get?] at h
    rw [insert]
    split_ifs at h ⊢ with hname
    · rw [Option.some.inj h]
    · rw [ih h]

/-! ## Putting one list into another -/

theorem update_cons (older : Assoc α) (e : String × α) (newer : Assoc α) :
    update older (e :: newer) = update (insert e.1 e.2 older) newer := rfl

theorem get?_update {older newer : Assoc α} (hn : (keys newer).Nodup) (key : String) :
    get? key (update older newer) = (get? key newer).or (get? key older) := by
  induction newer generalizing older with
  | nil => rfl
  | cons e newer ih =>
    obtain ⟨name, entry⟩ := e
    obtain ⟨hnew, hn⟩ := List.nodup_cons.mp hn
    rw [update_cons, ih hn, get?_insert, get?]
    by_cases hname : key = name
    · rw [hname, get?_eq_none_iff.mpr hnew]
      simp
    · have hne : name ≠ key := fun h => hname h.symm
      simp [hname, hne]

theorem mem_of_mem_update {older newer : Assoc α} {e : String × α}
    (h : e ∈ update older newer) : e ∈ newer ∨ e ∈ older := by
  induction newer generalizing older with
  | nil => exact .inr h
  | cons head newer ih =>
    rw [update_cons] at h
    rcases ih h with h | h
    · exact .inl (List.mem_cons_of_mem _ h)
    · rcases mem_of_mem_insert h with heq | h
      · exact .inl (heq ▸ List.mem_cons_self)
      · exact .inr h

theorem nodup_keys_update {older : Assoc α} (h : (keys older).Nodup) (newer : Assoc α) :
    (keys (update older newer)).Nodup := by
  induction newer generalizing older with
  | nil => exact h
  | cons head newer ih =>
    rw [update_cons]
    exact ih (nodup_keys_insert h)

/-- Entries that are there already change nothing. -/
theorem update_self {entries : Assoc α} (hn : (keys entries).Nodup) :
    update entries entries = entries := by
  have hsome : ∀ newer : Assoc α, (∀ e ∈ newer, e ∈ entries) → update entries newer = entries := by
    intro newer hnewer
    induction newer with
    | nil => rfl
    | cons e newer ih =>
      obtain ⟨he, hnewer⟩ := List.forall_mem_cons.mp hnewer
      rw [update_cons, insert_of_get? (get?_of_mem hn he), ih hnewer]
  exact hsome entries fun _ he => he

/-! ## Leaving out names -/

theorem get?_filter {p : String → Bool} {key : String} (hp : p key = true) (entries : Assoc α) :
    get? key (entries.filter fun e => p e.1) = get? key entries := by
  induction entries with
  | nil => rfl
  | cons head rest ih =>
    obtain ⟨name, entry⟩ := head
    by_cases hname : name = key
    · simp [get?, hname, hp]
    · by_cases hkeep : p name = true <;> simp [get?, hname, hkeep, ih]

/-- Putting an entry under a name changes only what is under that name. -/
theorem filter_insert (p : String → Bool) (key : String) (entry : α) (entries : Assoc α) :
    (insert key entry entries).filter (fun e => p e.1) =
      if p key then insert key entry (entries.filter fun e => p e.1)
      else entries.filter fun e => p e.1 := by
  induction entries with
  | nil => by_cases hp : p key = true <;> simp [insert, hp]
  | cons e entries ih =>
    obtain ⟨name, old⟩ := e
    by_cases hname : name = key
    · subst hname
      by_cases hp : p name = true <;> simp [insert, hp]
    · by_cases hp : p name = true <;> by_cases hk : p key = true <;>
        simp [insert, hname, hp, hk, ih]

theorem filter_update (p : String → Bool) (older newer : Assoc α) :
    (update older newer).filter (fun e => p e.1) =
      update (older.filter fun e => p e.1) (newer.filter fun e => p e.1) := by
  induction newer generalizing older with
  | nil => rfl
  | cons e newer ih =>
    rw [update_cons, ih, filter_insert]
    by_cases hp : p e.1 = true <;> simp [hp, update_cons]

/-! ## Changing all entries -/

theorem keys_map (f : String × α → β) (entries : Assoc α) :
    keys (entries.map fun e => (e.1, f e)) = keys entries := by
  simp [keys]

theorem get?_map (f : String → α → β) (key : String) (entries : Assoc α) :
    get? key (entries.map fun e => (e.1, f e.1 e.2)) = (get? key entries).map (f key) := by
  induction entries with
  | nil => rfl
  | cons head rest ih =>
    obtain ⟨name, entry⟩ := head
    by_cases hname : name = key
    · simp [get?, hname]
    · rw [List.map_cons, get?, get?, if_neg hname, if_neg hname, ih]

theorem map_insert (f : α → β) (key : String) (entry : α) (entries : Assoc α) :
    (insert key entry entries).map (fun e => (e.1, f e.2)) =
      insert key (f entry) (entries.map fun e => (e.1, f e.2)) := by
  induction entries with
  | nil => rfl
  | cons head rest ih =>
    obtain ⟨name, old⟩ := head
    by_cases hname : name = key
    · simp [insert, hname]
    · simp [insert, hname, ih]

theorem map_update (f : α → β) (older newer : Assoc α) :
    (update older newer).map (fun e => (e.1, f e.2)) =
      update (older.map fun e => (e.1, f e.2)) (newer.map fun e => (e.1, f e.2)) := by
  induction newer generalizing older with
  | nil => rfl
  | cons e newer ih => rw [update_cons, ih, map_insert, List.map_cons, update_cons]

end Assoc

end SchemaGrammar
