/-!
  Named entries in ascending order of name.

  The fields of an object, and every other table keyed by text, are a list of pairs with strictly
  ascending names.  Names compare by code point, which is also the order of their UTF-8 bytes.
  `insert` keeps the order and replaces an entry of the same name, so the last value given for a
  name is the one `find?` returns.
-/

namespace Expansion

/-- Entries keyed by name. -/
abbrev Fields (α : Type) := List (String × α)

namespace Fields

variable {α β : Type}

/-- The names in strictly ascending order, hence without repetition. -/
def Ordered (fields : Fields α) : Prop :=
  fields.Pairwise fun a b => a.1 < b.1

/-- The entry called `name`. -/
def find? (name : String) : Fields α → Option α
  | [] => none
  | (key, a) :: rest => if key = name then some a else find? name rest

/-- Files `a` under `name`, in place of an entry of that name or before the first greater one. -/
def insert (name : String) (a : α) : Fields α → Fields α
  | [] => [(name, a)]
  | (key, b) :: rest =>
    if key = name then (name, a) :: rest
    else if name < key then (name, a) :: (key, b) :: rest
    else (key, b) :: insert name a rest

/-- Drops the entry called `name`. -/
def erase (name : String) : Fields α → Fields α
  | [] => []
  | (key, b) :: rest => if key = name then rest else (key, b) :: erase name rest

/-- Applies `f` to the entry called `name`. -/
def modify (name : String) (f : α → α) : Fields α → Fields α
  | [] => []
  | (key, b) :: rest => if key = name then (key, f b) :: rest else (key, b) :: modify name f rest

/-- Entries in any order, the last of each name kept. -/
def ofList (entries : List (String × α)) : Fields α :=
  entries.foldl (fun fields entry => insert entry.1 entry.2 fields) []

@[simp] theorem find?_nil (name : String) : find? name ([] : Fields α) = none := rfl

/-- An inserted entry is found. -/
theorem find?_insert_self (name : String) (a : α) (fields : Fields α) :
    find? name (insert name a fields) = some a := by
  induction fields with
  | nil => simp [insert, find?]
  | cons entry rest ih =>
    obtain ⟨key, b⟩ := entry
    by_cases h : key = name
    · simp [insert, find?, h]
    · by_cases hlt : name < key <;> simp [insert, find?, h, hlt, ih]

/-- An insertion leaves the other entries alone. -/
theorem find?_insert_of_ne {name other : String} (h : other ≠ name) (a : α) (fields : Fields α) :
    find? other (insert name a fields) = find? other fields := by
  have h' : name ≠ other := fun e => h e.symm
  induction fields with
  | nil => simp [insert, find?, h']
  | cons entry rest ih =>
    obtain ⟨key, b⟩ := entry
    by_cases hk : key = name
    · subst hk
      simp [insert, find?, h']
    · by_cases hlt : name < key
      · simp [insert, find?, hk, hlt, h']
      · simp [insert, find?, hk, hlt, ih]

end Fields

end Expansion
