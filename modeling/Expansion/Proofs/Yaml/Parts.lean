import Expansion.Yaml.Datum

/-!
  The data in a datum.

  A datum is made of the elements of a sequence, the values of a mapping, or the datum under a tag.
  The keys of a mapping are not parts: they name the values and have none of their own.  `Has` is
  the closure of this, and `parts_induction` the induction over it.  What is said of every mapping
  in a datum (`EveryMapping`) is said of it and of its parts.
-/

namespace Expansion.Yaml.Datum

/-- The data that a datum is made of. -/
def parts : Datum → List Datum
  | sequence items => items
  | mapping entries => entries.map (·.2)
  | tagged _ datum => [datum]
  | _ => []

/-- The parts of a datum are smaller: recursion into them ends. -/
theorem sizeOf_lt_of_mem_parts {d c : Datum} (h : c ∈ d.parts) : sizeOf c < sizeOf d := by
  cases d with
  | sequence items =>
    have hlt : sizeOf c < sizeOf items := List.sizeOf_lt_of_mem h
    simp only [sequence.sizeOf_spec]
    omega
  | mapping entries =>
    obtain ⟨entry, hmem, rfl⟩ := List.mem_map.mp h
    obtain ⟨key, c⟩ := entry
    have hlt := List.sizeOf_lt_of_mem hmem
    simp only [Prod.mk.sizeOf_spec] at hlt
    simp only [mapping.sizeOf_spec]
    omega
  | tagged name datum =>
    obtain rfl := List.mem_singleton.mp h
    simp only [tagged.sizeOf_spec]
    omega
  | null | boolean b | number n | string s => cases h

/-- What passes from the parts of a datum to the datum holds of every datum. -/
theorem parts_induction {P : Datum → Prop} (h : ∀ d, (∀ c ∈ d.parts, P c) → P d) (d : Datum) :
    P d :=
  h d fun c _ => parts_induction h c
termination_by sizeOf d
decreasing_by exact sizeOf_lt_of_mem_parts ‹_›

/-- A datum is in another, at any depth. -/
inductive Has : Datum → Datum → Prop
  | self (d : Datum) : Has d d
  | part {d c x : Datum} (hc : c ∈ d.parts) (h : Has c x) : Has d x

/-- What is in a datum is the datum or in one of its parts. -/
theorem has_iff {d x : Datum} : d.Has x ↔ x = d ∨ ∃ c ∈ d.parts, c.Has x := by
  constructor
  · rintro (- | ⟨hc, h⟩)
    · exact .inl rfl
    · exact .inr ⟨_, hc, h⟩
  · rintro (rfl | ⟨c, hc, h⟩)
    · exact .self x
    · exact .part hc h

/-- A property of all data in a datum holds of it and of all data in its parts. -/
theorem forall_has_iff {P : Datum → Prop} {d : Datum} :
    (∀ x, d.Has x → P x) ↔ P d ∧ ∀ c ∈ d.parts, ∀ x, c.Has x → P x := by
  refine ⟨fun h => ⟨h d (.self d), fun c hc x hx => h x (.part hc hx)⟩, ?_⟩
  rintro ⟨hd, hparts⟩ x hx
  rcases has_iff.mp hx with rfl | ⟨c, hc, hx⟩
  · exact hd
  · exact hparts c hc x hx

/-! ## Properties of the mappings in a datum -/

/-- Every mapping in the datum, at any depth, has the property. -/
def EveryMapping (P : List (Datum × Datum) → Prop) (d : Datum) : Prop :=
  ∀ entries, d.Has (mapping entries) → P entries

/-- A property of every mapping: of the datum, if it is one, and of those in its parts. -/
theorem everyMapping_iff {P : List (Datum × Datum) → Prop} {d : Datum} :
    d.EveryMapping P ↔
      (∀ entries, d = mapping entries → P entries) ∧ ∀ c ∈ d.parts, c.EveryMapping P := by
  have hdata (x : Datum) : x.EveryMapping P ↔
      ∀ y, x.Has y → ∀ entries, y = mapping entries → P entries :=
    ⟨fun h _ hy entries he => h entries (he ▸ hy), fun h entries hx => h _ hx entries rfl⟩
  simp only [hdata]
  exact forall_has_iff

section

variable {P : List (Datum × Datum) → Prop}

/-- The only mappings in a datum are the datum and those in its parts; one rule for each form. -/
@[simp] theorem everyMapping_null : null.EveryMapping P := by
  rw [everyMapping_iff]
  exact ⟨nofun, nofun⟩

@[simp] theorem everyMapping_boolean (b : Bool) : (boolean b).EveryMapping P := by
  rw [everyMapping_iff]
  exact ⟨nofun, nofun⟩

@[simp] theorem everyMapping_number (n : Numeral) : (number n).EveryMapping P := by
  rw [everyMapping_iff]
  exact ⟨nofun, nofun⟩

@[simp] theorem everyMapping_string (s : String) : (string s).EveryMapping P := by
  rw [everyMapping_iff]
  exact ⟨nofun, nofun⟩

@[simp] theorem everyMapping_sequence (items : List Datum) :
    (sequence items).EveryMapping P ↔ ∀ c ∈ items, c.EveryMapping P := by
  rw [everyMapping_iff]
  exact and_iff_right nofun

@[simp] theorem everyMapping_mapping (entries : List (Datum × Datum)) :
    (mapping entries).EveryMapping P ↔ P entries ∧ ∀ entry ∈ entries, entry.2.EveryMapping P := by
  rw [everyMapping_iff, parts, List.forall_mem_map]
  exact and_congr_left fun _ => ⟨fun h => h entries rfl, fun h _ he => mapping.inj he ▸ h⟩

@[simp] theorem everyMapping_tagged (name : String) (datum : Datum) :
    (tagged name datum).EveryMapping P ↔ datum.EveryMapping P := by
  rw [everyMapping_iff, parts, List.forall_mem_singleton]
  exact and_iff_right nofun

end

/-- The keys of every mapping are pairwise different data. -/
def KeysDiffer : Datum → Prop :=
  EveryMapping fun entries => entries.Pairwise fun a b => a.1.same b.1 = false

end Expansion.Yaml.Datum
