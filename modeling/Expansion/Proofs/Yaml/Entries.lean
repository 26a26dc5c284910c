import Mathlib.Data.List.Pairwise
import Expansion.Proofs.Text.Quoted
import Expansion.Proofs.Yaml.Conversion

/-!
  What becomes of the entries of mappings.

  The keys of a mapping differ as data, but their names share one space: the text `1` and the number
  `1` are different keys with one name, and the field of that name holds the value of the later
  entry.  This is the only way in which two keys come to share a name (`Names.eq_iff`), so the
  names of a mapping all differ when no key spells another (`nodup_names_iff`), and a mapping keeps
  its entries when its names all differ (`kept_iff`).  Entries are kept in a datum when they are
  kept at its root and in its parts (`keepsEntries_iff_parts`), which carries this to every depth.

  Paths go by names.  Where an entry is lost, the path to it leads to the entry that took its name,
  so what is kept further down is only said of mappings whose own entries are kept.
-/

namespace Expansion.Yaml.Datum

variable {entries : List (Datum × Datum)} {names : List String} {values : List Value}
  {fields : Fields Value}

/-! ## Names of different keys -/

/-- The first key is a text, the second a natural number, and the text is its decimal form. -/
def Spells : Datum → Datum → Prop
  | string s, number (.whole n) => 0 ≤ n ∧ s = toString n
  | _, _ => False

/-- In no mapping is a key the decimal form of another. -/
def SpellsNoKey : Datum → Prop :=
  EveryMapping fun entries => ∀ a ∈ entries, ∀ b ∈ entries, ¬ a.1.Spells b.1

/-- A key has one name. -/
theorem Names.unique {key : Datum} {s t : String} (hs : key.Names s) (ht : key.Names t) : s = t :=
  Option.some.inj
    ((fieldName?_eq_some_iff.mpr hs).symm.trans (fieldName?_eq_some_iff.mpr ht))

/-- Different keys have one name only when a text spells a number.  Two texts that differ are
different names, and the decimal forms of two numbers differ when the numbers do. -/
theorem Names.eq_iff {key other : Datum} {s t : String} (hs : key.Names s) (ht : other.Names t)
    (hdiffer : key.same other = false) : s = t ↔ key.Spells other ∨ other.Spells key := by
  cases hs with
  | text s =>
    cases ht with
    | text t =>
      have hne : s ≠ t := by simpa [same] using hdiffer
      exact iff_of_false hne (by simp [Spells])
    | natural l hl =>
      simp only [Spells, or_false]
      exact (and_iff_right (Int.natCast_nonneg l)).symm
  | natural k hk =>
    cases ht with
    | text t =>
      simp only [Spells, false_or]
      exact eq_comm.trans (and_iff_right (Int.natCast_nonneg k)).symm
    | natural l hl =>
      have hne : k ≠ l := by
        rintro rfl
        simp [same] at hdiffer
      exact iff_of_false (fun h => hne (eq_of_toString_eq h)) (by simp [Spells])

/-- The names of a mapping are all different when no key spells another.  By induction on the
entries: the first name is compared with those of the later keys. -/
theorem nodup_names_iff (hdiffer : entries.Pairwise fun a b => a.1.same b.1 = false)
    (hnames : List.Forall₂ Names (entries.map (·.1)) names) :
    names.Nodup ↔ ∀ a ∈ entries, ∀ b ∈ entries, ¬ a.1.Spells b.1 := by
  have hself (key : Datum) : ¬ key.Spells key := by cases key <;> exact id
  induction entries generalizing names with
  | nil =>
    cases hnames
    exact iff_of_true List.nodup_nil nofun
  | cons entry rest ih =>
    obtain ⟨hfirst, hrest⟩ := List.pairwise_cons.mp hdiffer
    obtain ⟨name, more, hname, hmore, rfl⟩ := List.forall₂_cons_left_iff.mp hnames
    -- The first name is new when its key neither spells nor is spelled by a later one.
    have hnew : name ∉ more ↔ ∀ b ∈ rest, ¬ entry.1.Spells b.1 ∧ ¬ b.1.Spells entry.1 := by
      constructor
      · intro h b hb
        obtain ⟨t, ht, hbt⟩ := exists_mem_of_forall₂ hmore (List.mem_map_of_mem hb)
        have hne : name ≠ t := fun he => h (he ▸ ht)
        exact not_or.mp (mt (hname.eq_iff hbt (hfirst b hb)).mpr hne)
      · intro h hin
        obtain ⟨key, hkey, hbt⟩ := exists_mem_of_forall₂ hmore.flip hin
        obtain ⟨b, hb, rfl⟩ := List.mem_map.mp hkey
        exact not_or.mpr (h b hb) ((hname.eq_iff hbt (hfirst b hb)).mp rfl)
    refine (List.nodup_cons.trans (and_congr hnew (ih hrest hmore))).trans ?_
    constructor
    · rintro ⟨hentry, hothers⟩ a ha b hb
      rcases List.mem_cons.mp ha with rfl | ha' <;> rcases List.mem_cons.mp hb with rfl | hb'
      · exact hself _
      · exact (hentry b hb').1
      · exact (hentry a ha').2
      · exact hothers a ha' b hb'
    · intro h
      exact ⟨fun b hb => ⟨h _ List.mem_cons_self b (List.mem_cons_of_mem _ hb),
        h b (List.mem_cons_of_mem _ hb) _ List.mem_cons_self⟩,
        fun a ha b hb => h a (List.mem_cons_of_mem _ ha) b (List.mem_cons_of_mem _ hb)⟩

/-! ## Order -/

/-- The fields of every object are in order.  Filing puts the fields in order, whatever the order of
the entries. -/
theorem Becomes.ordered {d : Datum} {v : Value} (h : d.Becomes v) : v.Ordered := by
  induction d using parts_induction generalizing v with
  | h d ih =>
  cases h with
  | null | boolean b | string s | number h => exact trivial
  | sequence h =>
    refine Value.orderedItems_iff.mpr fun v hv => ?_
    obtain ⟨c, hc, hcv⟩ := exists_mem_of_forall₂ h.flip hv
    exact ih c hc hcv
  | mapping hnames hvalues hfields =>
    refine ⟨hfields.ordered, Value.orderedFields_iff.mpr fun entry hin => ?_⟩
    have hv := (List.of_mem_zip (hfields.mem_of_mem hin)).2
    obtain ⟨c, hc, hcv⟩ := exists_mem_of_forall₂ hvalues.flip hv
    exact ih c hc hcv
  | tagged h => exact ih _ List.mem_cons_self h

/-! ## What is kept -/

/-- The value has one field for each entry, and there finds what the entry becomes. -/
def Kept (entries : List (Datum × Datum)) (v : Value) : Prop :=
  ∃ fields, v = .object fields ∧ fields.length = entries.length ∧
    ∀ entry ∈ entries, ∃ name w, entry.1.Names name ∧ entry.2.Becomes w ∧
      Fields.find? name fields = some w

/-- Every mapping is kept, with all its entries, at the path that leads to it. -/
def KeepsEntries (d : Datum) (v : Value) : Prop :=
  ∀ p entries, d.At p (mapping entries) → ∃ u, v.get? p = some u ∧ Kept entries u

/-- Each entry is one of the row of names and values. -/
theorem exists_mem_zip (hnames : List.Forall₂ Names (entries.map (·.1)) names)
    (hvalues : List.Forall₂ Becomes (entries.map (·.2)) values) {entry : Datum × Datum}
    (hin : entry ∈ entries) :
    ∃ name w, (name, w) ∈ names.zip values ∧ entry.1.Names name ∧ entry.2.Becomes w := by
  induction entries generalizing names values with
  | nil => cases hin
  | cons first rest ih =>
    obtain ⟨name, more, hname, hmore, rfl⟩ := List.forall₂_cons_left_iff.mp hnames
    obtain ⟨w, others, hw, hothers, rfl⟩ := List.forall₂_cons_left_iff.mp hvalues
    rcases List.mem_cons.mp hin with rfl | hin
    · exact ⟨name, w, List.mem_cons_self, hname, hw⟩
    · obtain ⟨name, w, hmem, h⟩ := ih hmore hothers hin
      exact ⟨name, w, List.mem_cons_of_mem _ hmem, h⟩

/-- The entries of a mapping are kept when their names are all different, and only then.  The fields
are as many as the entries exactly when no name comes twice, and then each entry is found under its
name. -/
theorem kept_iff (hnames : List.Forall₂ Names (entries.map (·.1)) names)
    (hvalues : List.Forall₂ Becomes (entries.map (·.2)) values)
    (hfields : Fields.Gathers (names.zip values) fields) :
    Kept entries (.object fields) ↔ names.Nodup := by
  have hlength : names.length = entries.length := by simpa using hnames.length_eq.symm
  have hvlength : values.length = entries.length := by simpa using hvalues.length_eq.symm
  have hrow : (names.zip values).map (·.1) = names :=
    List.map_fst_zip (Nat.le_of_eq (hlength.trans hvlength.symm))
  have hrowlength : (names.zip values).length = entries.length := by simp [hlength, hvlength]
  rw [← hrow, ← hfields.length_eq_iff, hrowlength]
  constructor
  · rintro ⟨_, ⟨⟩, h, -⟩
    exact h
  · intro h
    refine ⟨fields, rfl, h, fun entry hin => ?_⟩
    obtain ⟨name, w, hmem, hname, hw⟩ := exists_mem_zip hnames hvalues hin
    have hnodup := hfields.length_eq_iff.mp (h.trans hrowlength.symm)
    exact ⟨name, w, hname, hw, hfields.find?_of_mem hnodup hmem⟩

/-- A path into an array goes on from the element. -/
theorem get?_index {i : Nat} {w : Value} {p : Path} (h : values[i]? = some w) :
    Value.get? (.index i :: p) (.array values) = w.get? p := by
  rw [Value.get?, Value.part?, Key.index?, Option.bind_some, h, Option.bind_some]

/-- A path into an object goes on from the field. -/
theorem get?_field {name : String} {w : Value} {p : Path} (h : Fields.find? name fields = some w) :
    Value.get? (.field name :: p) (.object fields) = w.get? p := by
  rw [Value.get?, Value.part?, Key.name?, Option.bind_some, h, Option.bind_some]

/-- What a datum becomes keeps its own entries and those of its parts.  Elements and tagged data are
always reached.  A value of a mapping is reached under its name, which is why the entries of the
mapping itself have to be kept first. -/
theorem keepsEntries_iff_parts {d : Datum} {v : Value} (h : d.Becomes v) :
    d.KeepsEntries v ↔ (∀ entries, d = mapping entries → Kept entries v) ∧
      ∀ c ∈ d.parts, ∀ w, c.Becomes w → c.KeepsEntries w := by
  cases h with
  | null | boolean b | string s | number h => exact iff_of_true nofun ⟨nofun, nofun⟩
  | @sequence items values h =>
    constructor
    · intro hkeeps
      refine ⟨nofun, fun c hc w hw p entries hp => ?_⟩
      obtain ⟨i, hi⟩ := List.mem_iff_getElem?.mp hc
      obtain ⟨u, hu, hkept⟩ := hkeeps (.index i :: p) entries (.item hi hp)
      obtain ⟨w', hw', hbecomes⟩ := exists_getElem?_of_forall₂ h hi
      obtain rfl := hw.unique hbecomes
      exact ⟨u, (get?_index hw').symm.trans hu, hkept⟩
    · rintro ⟨-, hparts⟩ p entries (- | ⟨hi, hp⟩)
      obtain ⟨w, hw, hbecomes⟩ := exists_getElem?_of_forall₂ h hi
      obtain ⟨u, hu, hkept⟩ := hparts _ (List.mem_of_getElem? hi) w hbecomes _ entries hp
      exact ⟨u, (get?_index hw).trans hu, hkept⟩
  | @mapping entries names values fields hnames hvalues hfields =>
    constructor
    · intro hkeeps
      obtain ⟨_, ⟨⟩, hkept⟩ := hkeeps [] entries (.here _)
      refine ⟨fun _ h => by cases h; exact hkept, fun c hc w hw p inner hp => ?_⟩
      -- The entry is found under its name, so the paths below it go on from there.
      obtain ⟨entry, hin, rfl⟩ := List.mem_map.mp hc
      obtain ⟨_, ⟨⟩, -, hfound⟩ := hkept
      obtain ⟨name, w', hname, hw', hfind⟩ := hfound entry hin
      obtain rfl := hw.unique hw'
      obtain ⟨u, hu, hinner⟩ := hkeeps (.field name :: p) inner (.entry hin hname hp)
      exact ⟨u, (get?_field hfind).symm.trans hu, hinner⟩
    · rintro ⟨hkept, hparts⟩ p inner hp
      cases hp with
      | here => exact ⟨_, rfl, hkept entries rfl⟩
      | @entry _ key c _ name p hin hname hp =>
        obtain ⟨_, ⟨⟩, -, hfound⟩ := hkept entries rfl
        obtain ⟨name', w, hname', hw, hfind⟩ := hfound (key, c) hin
        obtain rfl := hname.unique hname'
        obtain ⟨u, hu, hinner⟩ := hparts c (List.mem_map_of_mem hin) w hw p inner hp
        exact ⟨u, (get?_field hfind).trans hu, hinner⟩
  | @tagged name c v hc =>
    constructor
    · intro hkeeps
      refine ⟨nofun, fun c' hc' w hw p entries hp => ?_⟩
      obtain rfl := List.mem_singleton.mp hc'
      obtain rfl := hw.unique hc
      exact hkeeps p entries (.tagged hp)
    · rintro ⟨-, hparts⟩ p entries (- | - | - | hp)
      exact hparts c List.mem_cons_self v hc p entries hp

/-- The parts of a datum that is accepted are accepted. -/
theorem Becomes.exists_of_mem_parts {d c : Datum} {v : Value} (h : d.Becomes v)
    (hc : c ∈ d.parts) : ∃ w, c.Becomes w := by
  rw [exists_becomes_iff]
  exact (forall_has_iff.mp ((exists_becomes_iff d).mp ⟨v, h⟩)).2 c hc

/-- An accepted datum with different keys keeps its entries when no key spells another, by induction
on its parts. -/
theorem Becomes.keepsEntries_iff {d : Datum} {v : Value} (h : d.Becomes v) (hd : d.KeysDiffer) :
    d.KeepsEntries v ↔ d.SpellsNoKey := by
  induction d using parts_induction generalizing v with
  | h d ih =>
  obtain ⟨hown, hparts⟩ := everyMapping_iff.mp hd
  rw [keepsEntries_iff_parts h, SpellsNoKey, everyMapping_iff]
  refine and_congr ?_ (forall₂_congr fun c hc => ?_)
  · refine forall₂_congr fun entries he => ?_
    subst he
    cases h with
    | mapping hnames hvalues hfields =>
      rw [kept_iff hnames hvalues hfields, nodup_names_iff (hown entries rfl) hnames]
  · obtain ⟨w, hw⟩ := h.exists_of_mem_parts hc
    constructor
    · intro hkeeps
      exact (ih c hc hw (hparts c hc)).mp (hkeeps w hw)
    · intro hspells w' hw'
      exact (ih c hc hw' (hparts c hc)).mpr hspells

/-- Where all keys are names, a path leads to every datum. -/
theorem Representable.exists_at {d x : Datum} (hd : d.Representable) (hx : d.Has x) :
    ∃ p, d.At p x := by
  induction hx with
  | self d => exact ⟨[], .here d⟩
  | @part d c x hc hx ih =>
    obtain ⟨hown, hparts⟩ := forall_has_iff.mp hd
    obtain ⟨p, hp⟩ := ih (hparts c hc)
    cases d with
    | sequence items =>
      obtain ⟨i, hi⟩ := List.mem_iff_getElem?.mp hc
      exact ⟨_, .item hi hp⟩
    | mapping entries =>
      obtain ⟨entry, hin, rfl⟩ := List.mem_map.mp hc
      obtain ⟨name, hname⟩ := hown entry hin
      exact ⟨_, .entry hin hname hp⟩
    | tagged name datum =>
      obtain rfl := List.mem_singleton.mp hc
      exact ⟨_, .tagged hp⟩
    | null | boolean b | string s | number n => cases hc

/-- Where the keys of every mapping differ, an accepted datum keeps all entries of all its mappings
if and only if no key of a mapping is the decimal form of another.  A path leads to every mapping,
so this is about all of them. -/
theorem entries_kept_iff {d : Datum} {v : Value} (hd : d.KeysDiffer) (hv : d.value [] = .ok v) :
    (d.KeepsEntries v ↔ d.SpellsNoKey) ∧
      ∀ entries, d.Has (mapping entries) → ∃ p, d.At p (mapping entries) := by
  have hbecomes : d.Becomes v := (value_eq_ok_iff d [] v).mp hv
  have hrepresentable : d.Representable := (exists_becomes_iff d).mp ⟨v, hbecomes⟩
  exact ⟨hbecomes.keepsEntries_iff hd, fun entries hin => hrepresentable.exists_at hin⟩

/-- Texts and numbers are kept side by side, and the same keys may come again further down. -/
theorem entries_kept_of_nested :
    let inner := mapping [(number (.whole 1), string "a"), (string "x", null)]
    let d := mapping [(string "1", .sequence [inner]), (number (.whole 2), .tagged "t" inner)]
    let u := Value.object [("1", .string "a"), ("x", .null)]
    let v := Value.object [("1", .array [u]), ("2", u)]
    d.KeysDiffer ∧ d.value [] = .ok v ∧ d.KeepsEntries v := by
  intro inner d u v
  have hd : d.KeysDiffer := by simp [d, inner, KeysDiffer, same]
  have hv : d.value [] = .ok v := rfl
  have hspells : d.SpellsNoKey := by
    simp +decide [d, inner, SpellsNoKey, Spells, List.forall_mem_cons, -List.mem_cons,
      -Prod.forall]
  exact ⟨hd, hv, (entries_kept_iff hd hv).1.mpr hspells⟩

/-- The text `1` and the number `1` are different keys of a mapping, and the entry of the text is
lost. -/
theorem keepsEntries_fails_of_spelled :
    let d := mapping [(string "1", string "a"), (number (.whole 1), string "b")]
    let v := Value.object [("1", .string "b")]
    d.KeysDiffer ∧ d.value [] = .ok v ∧ ¬ d.KeepsEntries v := by
  intro d v
  have hd : d.KeysDiffer := by simp [d, KeysDiffer, same]
  refine ⟨hd, rfl, fun hkeeps => ?_⟩
  obtain ⟨u, hu, fields, hfields, hlength, -⟩ := hkeeps [] _ (.here d)
  obtain rfl := Option.some.inj hu
  obtain rfl := Value.object.inj hfields
  cases hlength

end Expansion.Yaml.Datum
