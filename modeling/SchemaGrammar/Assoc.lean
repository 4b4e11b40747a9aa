/-!
# Ordered association lists

Objects of a document, properties of a schema and definitions in scope are lists of named
entries. They keep the order in which names first appeared; a repeated name keeps its place and
takes the later entry.
-/

namespace SchemaGrammar

/-- Entries by name, in the order the names first appeared. -/
abbrev Assoc (α : Type) := List (String × α)

namespace Assoc

variable {α β : Type}

/-- The names, in order. -/
def keys (entries : Assoc α) : List String := entries.map Prod.fst

/-- The entry under `key`. -/
def get? (key : String) : Assoc α → Option α
  | [] => none
  | (name, entry) :: rest => if name = key then some entry else get? key rest

/-- Whether there is an entry under `key`. -/
def contains (entries : Assoc α) (key : String) : Bool := (entries.get? key).isSome

/-- Puts `entry` under `key`: in the place of the entry that is there, or at the end. -/
def insert (key : String) (entry : α) : Assoc α → Assoc α
  | [] => [(key, entry)]
  | (name, old) :: rest =>
    if name = key then (name, entry) :: rest else (name, old) :: insert key entry rest

/-- Puts the entries of `newer` into `older`, one after the other. -/
def update (older newer : Assoc α) : Assoc α :=
  newer.foldl (fun entries entry => entries.insert entry.1 entry.2) older

/-- The entries of a list in which names may be repeated. -/
def ofList (entries : List (String × α)) : Assoc α := update [] entries

@[simp] theorem get?_nil (key : String) : get? key ([] : Assoc α) = none := rfl

@[simp] theorem get?_insert_self (key : String) (entry : α) (entries : Assoc α) :
    get? key (insert key entry entries) = some entry := by
  induction entries with
  | nil => simp [insert, get?]
  | cons head rest ih =>
    obtain ⟨name, old⟩ := head
    by_cases h : name = key <;> simp [insert, get?, h, ih]

theorem get?_insert_of_ne {key other : String} (h : other ≠ key) (entry : α) (entries : Assoc α) :
    get? other (insert key entry entries) = get? other entries := by
  induction entries with
  | nil => simp [insert, get?, Ne.symm h]
  | cons head rest ih =>
    obtain ⟨name, old⟩ := head
    by_cases hn : name = key
    · subst hn
      simp [insert, get?, Ne.symm h]
    · simp only [insert, hn, if_false]
      by_cases ho : name = other <;> simp [get?, ho, ih]

/-- Inserting keeps the names in place and adds a new one at the end. -/
theorem keys_insert (key : String) (entry : α) (entries : Assoc α) :
    keys (insert key entry entries) =
      if key ∈ keys entries then keys entries else keys entries ++ [key] := by
  induction entries with
  | nil => simp [insert, keys]
  | cons head rest ih =>
    obtain ⟨name, old⟩ := head
    by_cases hn : name = key
    · simp [insert, keys, hn]
    · have hne : key ≠ name := fun h => hn h.symm
      by_cases hk : key ∈ keys rest
      · simp_all [insert, keys]
      · simp_all [insert, keys]

end Assoc

end SchemaGrammar
