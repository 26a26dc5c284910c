import Expansion.Proofs.Value.Merge

/-!
  One field of an object.

  An entry of a table is read by `find?` and set or taken away by `put`.  In a table that is in
  order the two obey the laws of a lens: what was put is found, putting what is there changes
  nothing, and the last of two puts counts.  The laws follow from the fact that a table in order is
  determined by what is found in it (`Fields.Ordered.ext`).  `only name` is the table with no other
  entry, and a table is put together from its entries on their own (`Ordered.flatMap_only`).

  A function of values acts on a field when it depends on the entry of the field alone and changes
  no other (`ActsOn`).  Such functions are closed under composition (`ActsOn.bind`), and reading,
  writing, removing and merging by a path act on the field that the path starts with.  This is why
  what happens in one field of a document can be studied in the document that has only that field.
-/

namespace Expansion

namespace Fields

variable {α : Type} {fields : Fields α} {name other : String}

/-! ## One entry of a table -/

/-- The table with another entry called `name`, or with none. -/
def put (name : String) : Option α → Fields α → Fields α
  | some a, fields => insert name a fields
  | none, fields => erase name fields

/-- The entry called `name` on its own. -/
def only (name : String) (fields : Fields α) : Fields α := put name (find? name fields) []

theorem Ordered.nil : Ordered ([] : Fields α) := List.Pairwise.nil

/-- Tables in order are the same when they have the same entries: neither repeats a name, so each is
a rearrangement of the other, and the order leaves no choice. -/
theorem Ordered.ext_of_mem {more : Fields α} (h : Ordered fields) (hm : Ordered more)
    (he : ∀ entry, entry ∈ fields ↔ entry ∈ more) : fields = more := by
  have hnodup : ∀ {table : Fields α}, Ordered table → table.Nodup := by
    intro table ht
    refine List.Pairwise.imp (fun hlt heq => ?_) ht
    subst heq
    exact String.lt_irrefl _ hlt
  have hperm : fields.Perm more := (List.perm_ext_iff_of_nodup (hnodup h) (hnodup hm)).mpr he
  refine hperm.eq_of_pairwise (fun a b _ _ hab hba => ?_) h hm
  exact absurd hba (String.lt_asymm hab)

/-- Tables in order are the same when the same is found under every name. -/
theorem Ordered.ext {more : Fields α} (h : Ordered fields) (hm : Ordered more)
    (he : ∀ name, find? name fields = find? name more) : fields = more := by
  refine h.ext_of_mem hm fun ⟨name, a⟩ => ?_
  constructor
  · intro hin
    exact mem_of_find? ((he name).symm.trans (h.find?_of_mem hin))
  · intro hin
    exact mem_of_find? ((he name).trans (hm.find?_of_mem hin))

/-- Erasing leaves the other entries alone. -/
theorem find?_erase_of_ne (h : other ≠ name) (fields : Fields α) :
    find? other (Fields.erase name fields) = find? other fields := by
  induction fields with
  | nil => rfl
  | cons entry rest ih =>
    obtain ⟨key, b⟩ := entry
    by_cases hkey : key = name
    · have hne : key ≠ other := fun e => h (e.symm.trans hkey)
      simp only [Fields.erase, find?, hkey, if_true]
      rw [if_neg (hkey ▸ hne)]
    · simp only [Fields.erase, find?, hkey, if_false, ih]

/-- In order, nothing is found under a name that was erased. -/
theorem Ordered.find?_erase_self (h : Ordered fields) (name : String) :
    find? name (Fields.erase name fields) = none := by
  cases hf : find? name (Fields.erase name fields) with
  | none => rfl
  | some a => exact absurd rfl (find?_of_find?_erase h hf).1

/-! ## The laws of a lens -/

/-- A table stays in order. -/
theorem Ordered.put (h : Ordered fields) (name : String) (found : Option α) :
    Ordered (put name found fields) := by
  cases found with
  | some a => exact h.insert name a
  | none => exact h.erase name

/-- What was put is found. -/
theorem Ordered.find?_put_self (h : Ordered fields) (name : String) (found : Option α) :
    find? name (Fields.put name found fields) = found := by
  cases found with
  | some a => exact find?_insert_self name a fields
  | none => exact h.find?_erase_self name

/-- Other entries stay. -/
theorem find?_put_of_ne (h : other ≠ name) (found : Option α) (fields : Fields α) :
    find? other (put name found fields) = find? other fields := by
  cases found with
  | some a => exact find?_insert_of_ne h a fields
  | none => exact find?_erase_of_ne h fields

/-- Putting what is there changes nothing. -/
theorem Ordered.put_find? (h : Ordered fields) (name : String) :
    Fields.put name (find? name fields) fields = fields := by
  refine (h.put name _).ext h fun other => ?_
  by_cases hne : other = name
  · rw [hne, h.find?_put_self]
  · rw [find?_put_of_ne hne]

/-- The last of two puts counts. -/
theorem Ordered.put_put (h : Ordered fields) (name : String) (found next : Option α) :
    Fields.put name next (Fields.put name found fields) = Fields.put name next fields := by
  refine ((h.put name found).put name next).ext (h.put name next) fun other => ?_
  by_cases hne : other = name
  · rw [hne, (h.put name found).find?_put_self, h.find?_put_self]
  · rw [find?_put_of_ne hne, find?_put_of_ne hne, find?_put_of_ne hne]

/-- A single entry is in order. -/
theorem ordered_only (name : String) (fields : Fields α) : Ordered (only name fields) :=
  Ordered.nil.put name _

/-- An entry is found when it is on its own. -/
theorem find?_only_self (name : String) (fields : Fields α) :
    find? name (only name fields) = find? name fields :=
  Ordered.nil.find?_put_self name _

theorem find?_only_of_ne (h : other ≠ name) (fields : Fields α) :
    find? other (only name fields) = none :=
  find?_put_of_ne h _ []

/-- The entry of a table in order, on its own. -/
theorem Ordered.only_of_mem (h : Ordered fields) {entry : String × α} (he : entry ∈ fields) :
    only entry.1 fields = [entry] := by
  rw [only, h.find?_of_mem he]
  rfl

/-- A table on its own depends on its entry only. -/
theorem only_congr {more : Fields α} (h : find? name fields = find? name more) :
    only name fields = only name more := by
  rw [only, only, h]

/-- An entry on its own is all there is, or nothing is left of it. -/
theorem only_cases (name : String) (fields : Fields α) :
    (find? name fields = none ∧ only name fields = []) ∨
      ∃ a, find? name fields = some a ∧ only name fields = [(name, a)] := by
  rw [only]
  cases find? name fields with
  | none => exact Or.inl ⟨rfl, rfl⟩
  | some a => exact Or.inr ⟨a, rfl, rfl⟩

/-- What is in the table of one name is the entry that is found under it. -/
theorem mem_only {entry : String × α} :
    entry ∈ only name fields ↔ entry.1 = name ∧ find? name fields = some entry.2 := by
  obtain ⟨key, b⟩ := entry
  rcases only_cases name fields with ⟨hf, honly⟩ | ⟨a, hf, honly⟩
  · simp [honly, hf]
  · simp [honly, hf, eq_comm]

/-- A table is put together from its entries on their own. -/
theorem Ordered.flatMap_only {β : Type} {table : Fields β} (h : Ordered fields)
    (ht : Ordered table) (hn : ∀ name, (find? name fields).isSome → (find? name table).isSome) :
    (table.flatMap fun entry => only entry.1 fields) = fields := by
  have hordered : Ordered (table.flatMap fun entry => only entry.1 fields) := by
    refine List.pairwise_flatMap.mpr ⟨fun entry _ => ordered_only entry.1 fields, ?_⟩
    refine List.Pairwise.imp (fun {a b} hlt x hx y hy => ?_) ht
    rw [(mem_only.mp hx).1, (mem_only.mp hy).1]
    exact hlt
  -- Both sides are in order, so it is enough that they have the same entries.
  refine hordered.ext_of_mem h fun entry => ?_
  constructor
  · intro hin
    obtain ⟨other, -, hin⟩ := List.mem_flatMap.mp hin
    obtain ⟨hname, hfound⟩ := mem_only.mp hin
    rw [← hname] at hfound
    exact mem_of_find? hfound
  · intro hin
    have hfound : find? entry.1 fields = some entry.2 := h.find?_of_mem hin
    obtain ⟨b, hb⟩ := Option.isSome_iff_exists.mp (hn entry.1 (by simp [hfound]))
    exact List.mem_flatMap.mpr ⟨(entry.1, b), mem_of_find? hb, mem_only.mpr ⟨rfl, hfound⟩⟩

end Fields

namespace Value

variable {name : String} {f g : Value → Option Value}

/-! ## Functions that act on a field -/

/-- The function depends on the entry called `name` of an object alone, and changes no other. -/
def ActsOn (name : String) (f : Value → Option Value) : Prop :=
  ∃ change : Option Value → Option (Option Value), ∀ fields, Fields.Ordered fields →
    f (object fields) =
      (change (Fields.find? name fields)).map fun found => object (Fields.put name found fields)

/-- Doing nothing acts on every field. -/
theorem actsOn_some (name : String) : ActsOn name some := by
  refine ⟨some, fun fields h => ?_⟩
  rw [Option.map_some, h.put_find?]

/-- Failing acts on every field. -/
theorem actsOn_none (name : String) : ActsOn name fun _ => none :=
  ⟨fun _ => none, fun _ _ => rfl⟩

/-- Two functions that act on a field, one after the other, act on it: the second finds what the
first has put there, and of the two puts the last one counts. -/
theorem ActsOn.bind (hf : ActsOn name f) (hg : ActsOn name g) :
    ActsOn name fun v => (f v).bind g := by
  obtain ⟨first, hfirst⟩ := hf
  obtain ⟨second, hsecond⟩ := hg
  refine ⟨fun found => (first found).bind second, fun fields h => ?_⟩
  show (f (object fields)).bind g = ((first (Fields.find? name fields)).bind second).map _
  rw [hfirst fields h]
  cases first (Fields.find? name fields) with
  | none => rfl
  | some found =>
    have hnext := hsecond _ (h.put name found)
    rw [h.find?_put_self] at hnext
    rw [Option.map_some, Option.bind_some, hnext, Option.bind_some]
    simp only [h.put_put]

/-- What is read below the field may decide what is done about it. -/
theorem ActsOn.read {act : Value → Value → Option Value} (path : Path)
    (h : ∀ x, ActsOn name (act x)) :
    ActsOn name fun v => (v.get? (.field name :: path)).bind fun x => act x v := by
  obtain ⟨change, hchange⟩ := Classical.axiomOfChoice h
  refine ⟨fun found => (found.bind (get? path)).bind fun x => change x found,
    fun fields ho => ?_⟩
  show ((Fields.find? name fields).bind (get? path)).bind _
    = (((Fields.find? name fields).bind (get? path)).bind _).map _
  cases (Fields.find? name fields).bind (get? path) with
  | none => rfl
  | some x => exact hchange x fields ho

/-- A write below a field acts on the field. -/
theorem actsOn_write (name : String) (path : Path) (w : Value) :
    ActsOn name fun v => v.write? (.field name :: path) w := by
  cases path with
  | nil => exact ⟨fun _ => some (some w), fun fields _ => rfl⟩
  | cons key rest =>
    refine ⟨fun found => (found.bind (write? · (key :: rest) w)).map some, fun fields _ => ?_⟩
    show ((Fields.find? name fields).bind fun u => (u.write? (key :: rest) w).bind _) = _
    cases Fields.find? name fields with
    | none => rfl
    | some u =>
      show (u.write? (key :: rest) w).bind _ = ((u.write? (key :: rest) w).map some).map _
      cases u.write? (key :: rest) w <;> rfl

/-- A removal of a field, or below it, acts on the field. -/
theorem actsOn_remove (name : String) (path : Path) :
    ActsOn name (remove? (.field name :: path)) := by
  cases path with
  | nil =>
    refine ⟨fun found => found.map fun _ => none, fun fields _ => ?_⟩
    show ((Fields.find? name fields).bind fun _ => some (object (Fields.erase name fields))) = _
    cases Fields.find? name fields <;> rfl
  | cons key rest =>
    refine ⟨fun found => (found.bind (remove? (key :: rest))).map some, fun fields _ => ?_⟩
    show ((Fields.find? name fields).bind fun u => (u.remove? (key :: rest)).bind _) = _
    cases Fields.find? name fields with
    | none => rfl
    | some u =>
      show (u.remove? (key :: rest)).bind _ = ((u.remove? (key :: rest)).map some).map _
      cases u.remove? (key :: rest) <;> rfl

/-- A merge at a field, or below it, acts on the field: it reads the target there and writes the
merged value, and without parts in the source it does nothing. -/
theorem actsOn_overlay (name : String) (path : Path) (source : Value) :
    ActsOn name (overlay? (.field name :: path) source) := by
  cases hparts : source.hasParts with
  | false =>
    have heq : overlay? (.field name :: path) source = some := by
      funext v
      rw [overlay?, hparts, if_neg Bool.false_ne_true]
    exact heq ▸ actsOn_some name
  | true =>
    have heq : overlay? (.field name :: path) source = fun v =>
        (v.get? (.field name :: path)).bind fun target =>
          if target.kind = source.kind then v.write? (.field name :: path) (target.merge source)
          else none := by
      funext v
      rw [overlay?, hparts, if_pos rfl]
    rw [heq]
    refine ActsOn.read path fun target => ?_
    by_cases hk : target.kind = source.kind
    · simpa only [if_pos hk] using actsOn_write name path (target.merge source)
    · simpa only [if_neg hk] using actsOn_none name

/-- What is below a field is below it when the field is on its own. -/
theorem get?_only_self (name : String) (path : Path) (fields : Fields Value) :
    get? (.field name :: path) (object (Fields.only name fields))
      = get? (.field name :: path) (object fields) := by
  show (Fields.find? name (Fields.only name fields)).bind (get? path)
    = (Fields.find? name fields).bind (get? path)
  rw [Fields.find?_only_self]

/-- A path below the root of an object starts with the name of a field. -/
theorem exists_field_of_get? {path : Path} {fields : Fields Value} {u : Value} (hp : path ≠ [])
    (hu : get? path (object fields) = some u) :
    ∃ name rest a, path = .field name :: rest ∧ Fields.find? name fields = some a := by
  cases path with
  | nil => exact absurd rfl hp
  | cons key rest =>
    obtain ⟨a, ha, -⟩ := Option.bind_eq_some_iff.mp hu
    cases key with
    | index i => cases ha
    | field name => exact ⟨name, rest, a, rfl, ha⟩

end Value

end Expansion
