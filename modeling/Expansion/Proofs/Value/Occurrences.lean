import Expansion.Proofs.Value.Keys

/-!
  The marked fields of a value, one by one.

  `occurrences marked v` lists the paths of the fields of `v`, at any depth, whose names are marked:
  depth first, a field before those below it.  No path comes twice (`nodup_occurrences`), and the
  list has every path at which a marked field occurs and no other (`mem_occurrences_iff`).

  Both go part by part: `under` puts a key in front of what is listed below it, and lists of
  different keys have no path in common.  Elements are told apart by their positions and fields by
  their names (`mem_occurrencesItems_iff`, `mem_occurrencesFields_iff`), which is where the order of
  an object comes in: it has no name twice.
-/

namespace Expansion.Value

/-- The paths at and below a part: the key of the part, if it is marked itself, and the key before
every path inside. -/
def under (key : Key) (own : Bool) (inner : List Path) : List Path :=
  (if own then [[key]] else []) ++ inner.map (key :: ·)

mutual

/-- The paths of the fields with a marked name. -/
def occurrences (marked : String → Bool) : Value → List Path
  | scalar _ => []
  | array items => occurrencesItems marked 0 items
  | object fields => occurrencesFields marked fields

/-- The paths of marked fields in elements, counted from `i`. -/
def occurrencesItems (marked : String → Bool) (i : Nat) : List Value → List Path
  | [] => []
  | v :: rest =>
    under (.index i) false (v.occurrences marked) ++ occurrencesItems marked (i + 1) rest

/-- The paths of marked fields among fields and below. -/
def occurrencesFields (marked : String → Bool) : List (String × Value) → List Path
  | [] => []
  | (name, v) :: rest =>
    under (.field name) (marked name) (v.occurrences marked) ++ occurrencesFields marked rest

end

variable {marked : String → Bool} {key : Key} {own : Bool} {inner : List Path} {path rest : Path}

/-! ## The paths of one part -/

/-- What is listed for a part starts with its key and goes on with nothing, if the key is marked, or
with a path that is listed inside. -/
theorem mem_under_iff :
    path ∈ under key own inner ↔
      ∃ rest, path = key :: rest ∧ (rest = [] ∧ own = true ∨ rest ∈ inner) := by
  rw [under, List.mem_append, List.mem_map]
  constructor
  · rintro (h | ⟨rest, hr, rfl⟩)
    · cases own with
      | false => cases h
      | true => exact ⟨[], List.mem_singleton.mp h, Or.inl ⟨rfl, rfl⟩⟩
    · exact ⟨rest, rfl, Or.inr hr⟩
  · rintro ⟨rest, rfl, ⟨rfl, rfl⟩ | hr⟩
    · exact Or.inl (List.mem_singleton_self _)
    · exact Or.inr ⟨rest, hr, rfl⟩

/-- The paths of a part are different when those inside are and none of them is empty: then none of
them becomes the path of the part itself. -/
theorem nodup_under (key : Key) (own : Bool) (h : inner.Nodup) (hnil : [] ∉ inner) :
    (under key own inner).Nodup := by
  have hmap : (inner.map (key :: ·)).Nodup :=
    List.pairwise_map.mpr (h.imp fun hne he => hne (List.cons.inj he).2)
  cases own with
  | false => exact hmap
  | true =>
    refine List.nodup_cons.mpr ⟨fun hin => ?_, hmap⟩
    obtain ⟨rest, hr, he⟩ := List.mem_map.mp hin
    obtain rfl : rest = [] := (List.cons.inj he).2
    exact hnil hr

/-! ## Membership -/

/-- The elements are told apart by their position. -/
theorem mem_occurrencesItems_iff {i : Nat} {items : List Value} :
    path ∈ occurrencesItems marked i items ↔
      ∃ j v rest, items[j]? = some v ∧ path = .index (i + j) :: rest ∧
        rest ∈ v.occurrences marked := by
  induction items generalizing i with
  | nil => simp [occurrencesItems]
  | cons v others ih =>
    rw [occurrencesItems, List.mem_append, mem_under_iff, ih]
    constructor
    · rintro (⟨rest, rfl, ⟨-, hfalse⟩ | hr⟩ | ⟨j, w, rest, hw, rfl, hr⟩)
      · cases hfalse
      · exact ⟨0, v, rest, rfl, rfl, hr⟩
      · exact ⟨j + 1, w, rest, hw, by rw [Nat.add_right_comm, Nat.add_assoc], hr⟩
    · rintro ⟨j, w, rest, hw, rfl, hr⟩
      cases j with
      | zero =>
        obtain rfl : v = w := Option.some.inj hw
        exact Or.inl ⟨rest, rfl, Or.inr hr⟩
      | succ j => exact Or.inr ⟨j, w, rest, hw, by rw [Nat.add_right_comm, Nat.add_assoc], hr⟩

/-- The fields are told apart by their name. -/
theorem mem_occurrencesFields_iff {fields : List (String × Value)} :
    path ∈ occurrencesFields marked fields ↔
      ∃ name v rest, (name, v) ∈ fields ∧ path = .field name :: rest ∧
        (rest = [] ∧ marked name = true ∨ rest ∈ v.occurrences marked) := by
  induction fields with
  | nil => simp [occurrencesFields]
  | cons entry others ih =>
    obtain ⟨name, v⟩ := entry
    rw [occurrencesFields, List.mem_append, mem_under_iff, ih]
    constructor
    · rintro (⟨rest, rfl, hr⟩ | ⟨other, w, rest, hw, rfl, hr⟩)
      · exact ⟨name, v, rest, List.mem_cons_self, rfl, hr⟩
      · exact ⟨other, w, rest, List.mem_cons_of_mem _ hw, rfl, hr⟩
    · rintro ⟨other, w, rest, hw, rfl, hr⟩
      rcases List.mem_cons.mp hw with he | hw
      · obtain ⟨rfl, rfl⟩ := Prod.mk.inj he
        exact Or.inl ⟨rest, rfl, hr⟩
      · exact Or.inr ⟨other, w, rest, hw, rfl, hr⟩

/-- The root is no field. -/
theorem nil_notMem_occurrences (marked : String → Bool) (v : Value) :
    [] ∉ v.occurrences marked := by
  intro h
  cases v with
  | scalar s => cases h
  | array items =>
    obtain ⟨j, w, rest, -, hnil, -⟩ := mem_occurrencesItems_iff.mp h
    cases hnil
  | object fields =>
    obtain ⟨name, w, rest, -, hnil, -⟩ := mem_occurrencesFields_iff.mp h
    cases hnil

/-- A path is listed when its first key leads to a part and is marked itself, or the rest is listed
there. -/
theorem cons_mem_occurrences_iff {v : Value} (hv : v.Ordered) :
    key :: rest ∈ v.occurrences marked ↔
      ∃ w, v.part? key = some w ∧
        (rest = [] ∧ (∃ name, key = .field name ∧ marked name = true) ∨
          rest ∈ w.occurrences marked) := by
  cases v with
  | scalar s => simp [occurrences, part?]
  | array items =>
    rw [occurrences, mem_occurrencesItems_iff]
    constructor
    · rintro ⟨j, w, tail, hw, he, hr⟩
      obtain ⟨rfl, rfl⟩ := List.cons.inj he
      exact ⟨w, by rw [Nat.zero_add]; exact hw, Or.inr hr⟩
    · rintro ⟨w, hw, hr⟩
      obtain ⟨j, hj, hw⟩ := Option.bind_eq_some_iff.mp hw
      cases key with
      | field name => cases hj
      | index k =>
        obtain rfl : k = j := Option.some.inj hj
        -- A position is no marked name.
        rcases hr with ⟨-, name, hname, -⟩ | hr
        · cases hname
        · exact ⟨k, w, rest, hw, by rw [Nat.zero_add], hr⟩
  | object fields =>
    rw [occurrences, mem_occurrencesFields_iff]
    constructor
    · rintro ⟨name, w, tail, hw, he, hr⟩
      obtain ⟨rfl, rfl⟩ := List.cons.inj he
      refine ⟨w, hv.1.find?_of_mem hw, hr.imp_left fun h => ⟨h.1, name, rfl, h.2⟩⟩
    · rintro ⟨w, hw, hr⟩
      obtain ⟨name, hn, hw⟩ := Option.bind_eq_some_iff.mp hw
      cases key with
      | index i => cases hn
      | field other =>
        obtain rfl : other = name := Option.some.inj hn
        refine ⟨other, w, rest, Fields.mem_of_find? hw, rfl, hr.imp_left ?_⟩
        rintro ⟨hnil, name, hname, hmarked⟩
        obtain rfl := Key.field.inj hname
        exact ⟨hnil, hmarked⟩

/-- What is listed are the paths at which a marked field occurs, by induction on the path. -/
theorem mem_occurrences_iff {v : Value} (hv : v.Ordered) :
    path ∈ v.occurrences marked ↔ v.Occurs (marked · = true) path := by
  induction path generalizing v with
  | nil =>
    refine iff_of_false (nil_notMem_occurrences marked v) ?_
    rintro ⟨before, name, hnil, -⟩
    exact absurd hnil.symm (List.concat_ne_nil _ _)
  | cons key rest ih =>
    rw [cons_mem_occurrences_iff hv]
    have hget : ∀ w, v.part? key = some w → v.get? (key :: rest) = w.get? rest := by
      intro w hw
      show (v.part? key).bind (get? rest) = _
      rw [hw, Option.bind_some]
    constructor
    · rintro ⟨w, hw, ⟨rfl, name, rfl, hmarked⟩ | hr⟩
      · exact ⟨[], name, rfl, hmarked, by rw [hget w hw]; rfl⟩
      · obtain ⟨before, name, hpath, hmarked, hs⟩ := (ih (hv.part? hw)).mp hr
        exact ⟨key :: before, name, by rw [hpath]; rfl, hmarked, by rwa [hget w hw]⟩
    · rintro ⟨before, name, hpath, hmarked, hs⟩
      obtain ⟨u, hu⟩ := Option.isSome_iff_exists.mp hs
      obtain ⟨w, hw, -⟩ := Option.bind_eq_some_iff.mp hu
      refine ⟨w, hw, ?_⟩
      -- The field is a part of this value, or it is further down.
      cases before with
      | nil =>
        obtain ⟨rfl, rfl⟩ := List.cons.inj hpath
        exact Or.inl ⟨rfl, name, rfl, hmarked⟩
      | cons first before =>
        obtain ⟨rfl, rfl⟩ := List.cons.inj hpath
        exact Or.inr ((ih (hv.part? hw)).mpr ⟨before, name, rfl, hmarked, by rwa [← hget w hw]⟩)

/-! ## No path twice -/

mutual

/-- No path is listed twice. -/
theorem nodup_occurrences : (v : Value) → v.Ordered → (v.occurrences marked).Nodup
  | scalar _, _ => List.nodup_nil
  | array items, ho => nodup_occurrencesItems 0 items ho
  | object fields, ho => nodup_occurrencesFields fields ho.1 ho.2

/-- Two elements have no path in common, since their positions differ. -/
theorem nodup_occurrencesItems (i : Nat) :
    (items : List Value) → OrderedItems items → (occurrencesItems marked i items).Nodup
  | [], _ => List.nodup_nil
  | v :: rest, ho => by
    have hv := nodup_under (.index i) false (nodup_occurrences v ho.1)
      (nil_notMem_occurrences marked v)
    refine List.nodup_append.mpr ⟨hv, nodup_occurrencesItems (i + 1) rest ho.2, ?_⟩
    rintro path hin other hout rfl
    obtain ⟨tail, rfl, -⟩ := mem_under_iff.mp hin
    obtain ⟨j, w, more, -, he, -⟩ := mem_occurrencesItems_iff.mp hout
    have hi : i = i + 1 + j := Key.index.inj (List.cons.inj he).1
    omega

/-- Two fields have no path in common, since their names differ. -/
theorem nodup_occurrencesFields :
    (fields : List (String × Value)) → Fields.Ordered fields → OrderedFields fields →
      (occurrencesFields marked fields).Nodup
  | [], _, _ => List.nodup_nil
  | (name, v) :: rest, hn, ho => by
    obtain ⟨hlt, hn⟩ := List.pairwise_cons.mp hn
    have hv := nodup_under (.field name) (marked name) (nodup_occurrences v ho.1)
      (nil_notMem_occurrences marked v)
    refine List.nodup_append.mpr ⟨hv, nodup_occurrencesFields rest hn ho.2, ?_⟩
    rintro path hin other hout rfl
    obtain ⟨tail, rfl, -⟩ := mem_under_iff.mp hin
    obtain ⟨other, w, more, hw, he, -⟩ := mem_occurrencesFields_iff.mp hout
    obtain rfl : name = other := Key.field.inj (List.cons.inj he).1
    have hless : name < name := hlt (name, w) hw
    exact String.lt_irrefl name hless

end

end Expansion.Value
