import Mathlib.Data.List.Induction
import Mathlib.Data.List.Nodup
import Mathlib.Data.List.Perm.Subperm
import Expansion.Proofs.Value.Field

/-!
  Entries gathered in a table.

  A row of entries, in which names may repeat, is filed entry by entry.  The table holds under each
  name what the last entry of that name gives (`find?_ofList`, by induction on the row from its
  end), and this determines it (`gathers_iff`).  It has as many entries as the row if and only if no
  name repeats, and then the entries are those of the row.
-/

namespace Expansion.Fields

variable {α : Type} {row : List (String × α)} {fields : Fields α}

/-- The table of a row in which the last entry of each name counts. -/
structure Gathers (row : List (String × α)) (fields : Fields α) : Prop where
  ordered : Ordered fields
  last (name : String) : find? name fields = find? name row.reverse
  whole (h : (row.map (·.1)).Nodup) : fields.Perm row

/-- Under a name that no entry has, nothing is found. -/
theorem find?_eq_none_of_notMem {name : String} (h : name ∉ fields.map (·.1)) :
    find? name fields = none := by
  cases hf : find? name fields with
  | none => rfl
  | some a => exact absurd (List.mem_map_of_mem (mem_of_find? hf)) h

/-- The last entry of a row is filed last. -/
theorem ofList_concat (row : List (String × α)) (entry : String × α) :
    ofList (row ++ [entry]) = insert entry.1 entry.2 (ofList row) := by
  rw [ofList, List.foldl_concat, ofList]

/-- A table that is filed entry by entry is in order. -/
theorem ordered_ofList (row : List (String × α)) : Ordered (ofList row) := by
  induction row using List.reverseRecOn with
  | nil => exact Ordered.nil
  | append_singleton row entry ih =>
    rw [ofList_concat]
    exact ih.insert entry.1 entry.2

/-- Under each name the table holds what the last entry of that name gives, by induction on the row
from its end. -/
theorem find?_ofList (name : String) (row : List (String × α)) :
    find? name (ofList row) = find? name row.reverse := by
  induction row using List.reverseRecOn with
  | nil => rfl
  | append_singleton row entry ih =>
    obtain ⟨key, a⟩ := entry
    rw [ofList_concat, List.reverse_concat, find?]
    by_cases hk : key = name
    · rw [if_pos hk, hk, find?_insert_self]
    · rw [if_neg hk, find?_insert_of_ne (Ne.symm hk), ih]

/-- Entries whose names differ are all kept: each one that is filed has a new name, so it goes
between those that are there. -/
theorem perm_ofList (h : (row.map (·.1)).Nodup) : (ofList row).Perm row := by
  induction row using List.reverseRecOn with
  | nil => exact List.Perm.nil
  | append_singleton row entry ih =>
    obtain ⟨name, a⟩ := entry
    rw [List.map_append, List.nodup_append'] at h
    obtain ⟨hrow, -, hdisjoint⟩ := h
    have hnew : name ∉ row.reverse.map (·.1) := fun hin =>
      hdisjoint (by simpa using hin) List.mem_cons_self
    have hnone : find? name (ofList row) = none :=
      (find?_ofList name row).trans (find?_eq_none_of_notMem hnew)
    -- The new entry cuts the table, which by induction holds the entries of the row so far.
    obtain ⟨before, after, hsplit, hinsert⟩ := split_insert hnone a
    have hperm : (before ++ after).Perm row := hsplit ▸ ih hrow
    rw [ofList_concat, hinsert]
    calc List.Perm (before ++ (name, a) :: after) ((name, a) :: (before ++ after)) :=
          List.perm_middle
      List.Perm _ ((name, a) :: row) := hperm.cons _
      List.Perm _ (row ++ [(name, a)]) := (List.perm_append_singleton _ _).symm

/-- The table that is filed entry by entry gathers the row. -/
theorem gathers_ofList (row : List (String × α)) : Gathers row (ofList row) :=
  ⟨ordered_ofList row, fun name => find?_ofList name row, perm_ofList⟩

/-- No other table does, since a table in order is determined by what is found in it. -/
theorem gathers_iff : Gathers row fields ↔ fields = ofList row := by
  refine ⟨fun h => h.ordered.ext (ordered_ofList row) fun name => ?_, ?_⟩
  · rw [h.last, find?_ofList]
  · rintro rfl
    exact gathers_ofList row

/-- What is in the table is an entry of the row. -/
theorem Gathers.mem_of_mem (h : Gathers row fields) {entry : String × α} (hin : entry ∈ fields) :
    entry ∈ row := by
  have hfound := (h.last entry.1).symm.trans (h.ordered.find?_of_mem hin)
  exact List.mem_reverse.mp (mem_of_find? hfound)

/-- A table is as long as its row when no name repeats, and only then: its names are among those of
the row and differ, so with as many of them they are all. -/
theorem Gathers.length_eq_iff (h : Gathers row fields) :
    fields.length = row.length ↔ (row.map (·.1)).Nodup := by
  refine ⟨fun hlength => ?_, fun hnodup => (h.whole hnodup).length_eq⟩
  have hnodup : (fields.map (·.1)).Nodup :=
    List.pairwise_map.mpr (h.ordered.imp fun hlt => String.ne_of_lt hlt)
  have hsub : fields.map (·.1) ⊆ row.map (·.1) := List.map_subset _ fun _ => h.mem_of_mem
  have hperm := (List.subperm_of_subset hnodup hsub).perm_of_length_le (by simp [hlength])
  exact hperm.nodup_iff.mp hnodup

/-- Where no name repeats, every entry of the row is found. -/
theorem Gathers.find?_of_mem (h : Gathers row fields) (hnodup : (row.map (·.1)).Nodup)
    {name : String} {a : α} (hmem : (name, a) ∈ row) : find? name fields = some a :=
  h.ordered.find?_of_mem ((h.whole hnodup).mem_iff.mpr hmem)

end Expansion.Fields
