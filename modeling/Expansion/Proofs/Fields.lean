import Expansion.Fields

/-!
  Named entries: what the operations do to the list.

  A table keyed by name is a plain list of pairs, so every operation can be described by where it
  cuts the list.  Where a name occurs, the list is `before ++ (name, a) :: after`, with other names
  before it (`split_of_find?`); finding, changing and erasing are then equations on lists of this
  form (`find?_append_cons`, `modify_append_cons`, `erase_append_cons`), and so is an insertion when
  the names are in order (`insert_append_cons`).  Where a name does not occur, an insertion cuts the
  list at the place of the new name (`split_insert`).

  The operations leave names alone, so they commute with a change of the content of all entries
  (`find?_map`, `insert_map`, `erase_map`), and they keep the order (`Ordered.insert`,
  `Ordered.erase`).  In order, membership and finding are the same (`Ordered.find?_of_mem`).
-/

namespace Expansion.Fields

variable {α β : Type}

/-- What is found is in the list, under the name that was asked for. -/
theorem mem_of_find? {name : String} {a : α} {fields : Fields α} (h : find? name fields = some a) :
    (name, a) ∈ fields := by
  induction fields with
  | nil => simp at h
  | cons entry rest ih =>
    obtain ⟨key, b⟩ := entry
    by_cases hk : key = name
    · simp only [find?, hk, if_true, Option.some.injEq] at h
      exact List.mem_cons.mpr (Or.inl (by rw [hk, h]))
    · simp only [find?, hk, if_false] at h
      exact List.mem_cons_of_mem _ (ih h)

/-- The entry that is found stands after entries of other names. -/
theorem split_of_find? {name : String} {a : α} {fields : Fields α}
    (h : find? name fields = some a) :
    ∃ before after, fields = before ++ (name, a) :: after ∧ ∀ entry ∈ before, entry.1 ≠ name := by
  induction fields with
  | nil => simp at h
  | cons entry rest ih =>
    obtain ⟨key, b⟩ := entry
    by_cases hk : key = name
    · -- The first entry is the one, with nothing before it.
      simp only [find?, hk, if_true, Option.some.injEq] at h
      exact ⟨[], rest, by rw [hk, h]; rfl, by simp⟩
    · simp only [find?, hk, if_false] at h
      obtain ⟨before, after, rfl, hne⟩ := ih h
      refine ⟨(key, b) :: before, after, rfl, ?_⟩
      intro entry he
      rcases List.mem_cons.mp he with rfl | he
      · exact hk
      · exact hne entry he

/-- An entry after entries of other names is found. -/
theorem find?_append_cons {name : String} {before : Fields α} (h : ∀ entry ∈ before, entry.1 ≠ name)
    (a : α) (after : Fields α) : find? name (before ++ (name, a) :: after) = some a := by
  induction before with
  | nil => simp [find?]
  | cons entry rest ih =>
    have hk : entry.1 ≠ name := h entry List.mem_cons_self
    simp only [List.cons_append, find?, hk, if_false]
    exact ih fun e he => h e (List.mem_cons_of_mem _ he)

/-- A change reaches the first entry of the name and passes over those before it. -/
theorem modify_append_cons {name : String} {before : Fields α}
    (h : ∀ entry ∈ before, entry.1 ≠ name) (f : α → α) (a : α) (after : Fields α) :
    modify name f (before ++ (name, a) :: after) = before ++ (name, f a) :: after := by
  induction before with
  | nil => simp [modify]
  | cons entry rest ih =>
    have hk : entry.1 ≠ name := h entry List.mem_cons_self
    simp only [List.cons_append, modify, hk, if_false]
    rw [ih fun e he => h e (List.mem_cons_of_mem _ he)]

/-- Erasing takes out the first entry of the name and nothing else. -/
theorem erase_append_cons {name : String} {before : Fields α}
    (h : ∀ entry ∈ before, entry.1 ≠ name) (a : α) (after : Fields α) :
    erase name (before ++ (name, a) :: after) = before ++ after := by
  induction before with
  | nil => simp [erase]
  | cons entry rest ih =>
    have hk : entry.1 ≠ name := h entry List.mem_cons_self
    simp only [List.cons_append, erase, hk, if_false]
    rw [ih fun e he => h e (List.mem_cons_of_mem _ he)]

/-! ## Entries with other content -/

/-- Finding looks at names only, so the content may be changed before or after. -/
theorem find?_map (f : α → β) (name : String) (fields : Fields α) :
    find? name (fields.map fun entry => (entry.1, f entry.2)) = (find? name fields).map f := by
  induction fields with
  | nil => rfl
  | cons entry rest ih =>
    by_cases h : entry.1 = name <;> simp [find?, h, ih]

/-- An insertion places an entry by its name, whatever the content is. -/
theorem insert_map (f : α → β) (name : String) (a : α) (fields : Fields α) :
    insert name (f a) (fields.map fun entry => (entry.1, f entry.2))
      = (insert name a fields).map fun entry => (entry.1, f entry.2) := by
  induction fields with
  | nil => rfl
  | cons entry rest ih =>
    by_cases h : entry.1 = name
    · simp [insert, h]
    · by_cases hlt : name < entry.1 <;> simp [insert, h, hlt, ih]

/-- Erasing goes by the name, whatever the content is. -/
theorem erase_map (f : α → β) (name : String) (fields : Fields α) :
    erase name (fields.map fun entry => (entry.1, f entry.2))
      = (erase name fields).map fun entry => (entry.1, f entry.2) := by
  induction fields with
  | nil => rfl
  | cons entry rest ih =>
    by_cases h : entry.1 = name <;> simp [erase, h, ih]

/-! ## Entries in order -/

/-- In order, the entries before one have lesser names; so none of them has its name. -/
theorem Ordered.ne_of_mem_before {name : String} {a : α} {before after : Fields α}
    (h : Ordered (before ++ (name, a) :: after)) : ∀ entry ∈ before, entry.1 < name := by
  intro entry he
  exact (List.pairwise_append.mp h).2.2 entry he (name, a) List.mem_cons_self

/-- In order, the entries after one have greater names. -/
theorem Ordered.lt_of_mem_after {name : String} {a : α} {before after : Fields α}
    (h : Ordered (before ++ (name, a) :: after)) : ∀ entry ∈ after, name < entry.1 := by
  intro entry he
  exact (List.pairwise_cons.mp (List.pairwise_append.mp h).2.1).1 entry he

/-- In order, an insertion under a name that is there replaces the entry in its place.  The entries
before it are passed over because their names are lesser, which is what the order is needed for:
otherwise the new entry would stop before a greater one. -/
theorem insert_append_cons {name : String} {before after : Fields α} {a : α}
    (h : Ordered (before ++ (name, a) :: after)) (b : α) :
    insert name b (before ++ (name, a) :: after) = before ++ (name, b) :: after := by
  induction before with
  | nil => simp [insert]
  | cons entry rest ih =>
    have hlt : entry.1 < name := h.ne_of_mem_before entry List.mem_cons_self
    have hne : entry.1 ≠ name := String.ne_of_lt hlt
    have hnlt : ¬ name < entry.1 := String.lt_asymm hlt
    simp only [List.cons_append, insert, hne, hnlt, if_false]
    rw [ih (List.pairwise_cons.mp h).2]

/-- The names alone decide whether entries are in order. -/
theorem Ordered.of_names_eq {fields : Fields α} {other : Fields β}
    (h : Ordered fields) (hn : other.map (·.1) = fields.map (·.1)) : Ordered other := by
  have hf : (fields.map (·.1)).Pairwise (· < ·) := List.pairwise_map.mpr h
  exact List.pairwise_map.mp (hn ▸ hf)

/-- A new name goes between the lesser and the greater ones. -/
theorem split_insert {name : String} {fields : Fields α} (h : find? name fields = none) (a : α) :
    ∃ before after, fields = before ++ after ∧
      insert name a fields = before ++ (name, a) :: after := by
  induction fields with
  | nil => exact ⟨[], [], rfl, rfl⟩
  | cons entry rest ih =>
    obtain ⟨key, b⟩ := entry
    have hk : key ≠ name := by
      rintro rfl
      simp [find?] at h
    simp only [find?, hk, if_false] at h
    by_cases hlt : name < key
    · exact ⟨[], (key, b) :: rest, rfl, by simp [insert, hk, hlt]⟩
    · obtain ⟨before, after, rfl, hi⟩ := ih h
      exact ⟨(key, b) :: before, after, rfl, by simp [insert, hk, hlt, hi]⟩

/-- An insertion brings in no entry but its own. -/
theorem mem_insert {name : String} {a : α} {fields : Fields α} {entry : String × α}
    (h : entry ∈ insert name a fields) : entry = (name, a) ∨ entry ∈ fields := by
  induction fields with
  | nil => exact Or.inl (List.mem_singleton.mp h)
  | cons first rest ih =>
    obtain ⟨key, b⟩ := first
    simp only [insert] at h
    split at h
    · rcases List.mem_cons.mp h with h | h
      · exact Or.inl h
      · exact Or.inr (List.mem_cons_of_mem _ h)
    · split at h
      · rcases List.mem_cons.mp h with h | h
        · exact Or.inl h
        · exact Or.inr h
      · rcases List.mem_cons.mp h with h | h
        · exact Or.inr (h ▸ List.mem_cons_self)
        · rcases ih h with h | h
          · exact Or.inl h
          · exact Or.inr (List.mem_cons_of_mem _ h)

/-- The entry that is inserted is in the list. -/
theorem mem_insert_self (name : String) (a : α) (fields : Fields α) :
    (name, a) ∈ insert name a fields :=
  mem_of_find? (find?_insert_self name a fields)

/-- An entry of another name stays. -/
theorem mem_insert_of_ne {name : String} {a : α} {fields : Fields α} {entry : String × α}
    (hne : entry.1 ≠ name) (h : entry ∈ fields) : entry ∈ insert name a fields := by
  induction fields with
  | nil => cases h
  | cons first rest ih =>
    obtain ⟨key, b⟩ := first
    simp only [Fields.insert]
    by_cases hk : key = name
    · rw [if_pos hk]
      rcases List.mem_cons.mp h with rfl | h
      · exact absurd hk hne
      · exact List.mem_cons_of_mem _ h
    · rw [if_neg hk]
      split
      · exact List.mem_cons_of_mem _ h
      · rcases List.mem_cons.mp h with rfl | h
        · exact List.mem_cons_self
        · exact List.mem_cons_of_mem _ (ih h)

/-- An insertion keeps the order: it replaces the entry of the same name, or stands before the first
greater name, or goes on behind a lesser one. -/
theorem Ordered.insert {fields : Fields α} (h : Ordered fields) (name : String) (a : α) :
    Ordered (insert name a fields) := by
  induction fields with
  | nil => exact List.pairwise_singleton _ _
  | cons entry rest ih =>
    obtain ⟨key, b⟩ := entry
    obtain ⟨hfirst, hrest⟩ := List.pairwise_cons.mp h
    simp only [Fields.insert]
    split
    · rename_i hk
      -- The name is there: the new entry takes its place.
      subst hk
      exact List.pairwise_cons.mpr ⟨hfirst, hrest⟩
    · rename_i hk
      split
      · -- The name is less than the first: the entry goes in front of all.
        rename_i hlt
        refine List.pairwise_cons.mpr ⟨?_, h⟩
        intro other ho
        rcases List.mem_cons.mp ho with rfl | ho
        · exact hlt
        · exact String.lt_trans hlt (hfirst other ho)
      · -- The name is greater than the first: the entry goes further behind.
        rename_i hnlt
        have hgt : key < name := String.not_le.mp fun hle =>
          hk (String.le_antisymm (String.not_lt.mp hnlt) hle)
        refine List.pairwise_cons.mpr ⟨?_, ih hrest⟩
        intro other ho
        rcases mem_insert ho with rfl | ho
        · exact hgt
        · exact hfirst other ho

/-- Erasing brings in nothing. -/
theorem mem_of_mem_erase {name : String} {fields : Fields α} {entry : String × α}
    (h : entry ∈ erase name fields) : entry ∈ fields := by
  induction fields with
  | nil => exact h
  | cons first rest ih =>
    obtain ⟨key, b⟩ := first
    simp only [erase] at h
    split at h
    · exact List.mem_cons_of_mem _ h
    · rcases List.mem_cons.mp h with h | h
      · exact h ▸ List.mem_cons_self
      · exact List.mem_cons_of_mem _ (ih h)

/-- Erasing an entry keeps the order. -/
theorem Ordered.erase {fields : Fields α} (h : Ordered fields) (name : String) :
    Ordered (erase name fields) := by
  induction fields with
  | nil => exact h
  | cons entry rest ih =>
    obtain ⟨key, b⟩ := entry
    obtain ⟨hfirst, hrest⟩ := List.pairwise_cons.mp h
    simp only [Fields.erase]
    split
    · exact hrest
    · refine List.pairwise_cons.mpr ⟨?_, ih hrest⟩
      intro other ho
      exact hfirst other (mem_of_mem_erase ho)

/-- In order, every entry is found by its name. -/
theorem Ordered.find?_of_mem {fields : Fields α} (h : Ordered fields) {name : String} {a : α}
    (hm : (name, a) ∈ fields) : find? name fields = some a := by
  obtain ⟨before, after, rfl⟩ := List.append_of_mem hm
  exact find?_append_cons (fun e he => String.ne_of_lt (h.ne_of_mem_before e he)) a after

/-- What is found after an entry is dropped has another name and was found before.  In order there
is only one entry of a name, so none is left of the name that is dropped. -/
theorem find?_of_find?_erase {fields : Fields α} (h : Ordered fields) {name other : String} {a : α}
    (ha : find? other (erase name fields) = some a) :
    other ≠ name ∧ find? other fields = some a := by
  have hmem := mem_of_find? ha
  refine ⟨?_, h.find?_of_mem (mem_of_mem_erase hmem)⟩
  rintro rfl
  cases hf : find? other fields with
  -- Nothing was found under the name, so nothing of that name can be left.
  | none =>
    have hall := h.find?_of_mem (mem_of_mem_erase hmem)
    rw [hf] at hall
    contradiction
  | some b =>
    -- The entry is gone, and by the order no other one has its name.
    obtain ⟨before, after, rfl, hne⟩ := split_of_find? hf
    rw [erase_append_cons hne] at hmem
    rcases List.mem_append.mp hmem with hm | hm
    · exact hne _ hm rfl
    · exact String.lt_irrefl _ (h.lt_of_mem_after _ hm)

end Expansion.Fields
