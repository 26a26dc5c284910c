import Expansion.Proofs.Value.Path

/-!
  The field names of a value.

  `EveryKey ok v` says that every field name of `v`, at any depth, satisfies `ok`.  By path: a path
  that resolves and ends in a field ends in a name that satisfies `ok` (`everyKey_iff`).  The
  recursive form is what an induction on the value gives, and the form by paths is what is left
  after a change by path.

  `Occurs` turns this around: the paths where a field with a marked name is found.  A write adds no
  marked field but one that it names itself, when what is written holds none (`Occurs.of_write?`); a
  removal adds none, but brings those behind a removed element one element down
  (`Occurs.of_remove?`).  These two are what a run needs to know of its changes: with the names that
  call macros for marked ones, they say that no change brings in a call.
-/

namespace Expansion.Value

mutual

/-- Every field name, at any depth, satisfies `ok`. -/
def EveryKey (ok : String → Prop) : Value → Prop
  | scalar _ => True
  | array items => EveryKeyItems ok items
  | object fields => EveryKeyFields ok fields

/-- Every field name in every element satisfies `ok`. -/
def EveryKeyItems (ok : String → Prop) : List Value → Prop
  | [] => True
  | v :: rest => v.EveryKey ok ∧ EveryKeyItems ok rest

/-- Every name of a field, and every one below it, satisfies `ok`. -/
def EveryKeyFields (ok : String → Prop) : List (String × Value) → Prop
  | [] => True
  | (name, v) :: rest => ok name ∧ v.EveryKey ok ∧ EveryKeyFields ok rest

end

variable {ok : String → Prop}

/-- The names in elements are good when those in each element are. -/
theorem everyKeyItems_iff {items : List Value} :
    EveryKeyItems ok items ↔ ∀ v ∈ items, v.EveryKey ok := by
  induction items with
  | nil => simp [EveryKeyItems]
  | cons v rest ih => simp [EveryKeyItems, ih]

/-- The names in fields are good when each field has a good name and good names in it. -/
theorem everyKeyFields_iff {fields : List (String × Value)} :
    EveryKeyFields ok fields ↔ ∀ entry ∈ fields, ok entry.1 ∧ entry.2.EveryKey ok := by
  induction fields with
  | nil => simp [EveryKeyFields]
  | cons entry rest ih => simp [EveryKeyFields, ih, and_assoc]

/-- In a part of a good value the names are good, and so is the name that leads to it. -/
theorem EveryKey.part? {key : Key} {v w : Value} (h : v.EveryKey ok)
    (hw : v.part? key = some w) : (∀ name, key = .field name → ok name) ∧ w.EveryKey ok := by
  cases v with
  | scalar s => simp [Value.part?] at hw
  | array items =>
    obtain ⟨i, hi, hw⟩ := Option.bind_eq_some_iff.mp hw
    refine ⟨?_, everyKeyItems_iff.mp h w (List.mem_of_getElem? hw)⟩
    rintro name rfl
    contradiction
  | object fields =>
    obtain ⟨name, hn, hw⟩ := Option.bind_eq_some_iff.mp hw
    obtain ⟨hok, hv⟩ := everyKeyFields_iff.mp h _ (Fields.mem_of_find? hw)
    refine ⟨?_, hv⟩
    rintro other rfl
    obtain rfl : other = name := Option.some.inj hn
    exact hok

/-- A path that resolves ends in a good name, if in a name, by induction on the path. -/
theorem EveryKey.of_get? {v : Value} (h : v.EveryKey ok) {before : Path} {name : String}
    (hs : (v.get? (before ++ [.field name])).isSome) : ok name := by
  induction before generalizing v with
  | nil =>
    obtain ⟨w, hw⟩ := Option.isSome_iff_exists.mp hs
    obtain ⟨u, hu, -⟩ := Option.bind_eq_some_iff.mp hw
    exact (h.part? hu).1 name rfl
  | cons key rest ih =>
    obtain ⟨w, hw⟩ := Option.isSome_iff_exists.mp hs
    obtain ⟨u, hu, hw⟩ := Option.bind_eq_some_iff.mp hw
    exact ih (h.part? hu).2 (Option.isSome_iff_exists.mpr ⟨w, hw⟩)

/-- The names at the end of the paths that resolve are good. -/
def GoodPaths (ok : String → Prop) (v : Value) : Prop :=
  ∀ before name, (v.get? (before ++ [.field name])).isSome → ok name

/-- The paths into a part are paths of the value, one step longer. -/
theorem GoodPaths.part? {key : Key} {v w : Value} (h : v.GoodPaths ok)
    (hw : v.part? key = some w) : (∀ name, key = .field name → ok name) ∧ w.GoodPaths ok := by
  constructor
  · rintro name rfl
    refine h [] name ?_
    show ((v.part? _).bind _).isSome
    rw [hw]
    rfl
  · intro before name hs
    refine h (key :: before) name ?_
    show ((v.part? key).bind _).isSome
    rwa [hw]

mutual

/-- A value whose paths end in good names has good names only, by induction on the value.  The order
is needed to reach a field by its name: of two fields of one name, the second would be hidden. -/
theorem everyKey_of_goodPaths : (v : Value) → v.Ordered → v.GoodPaths ok → v.EveryKey ok
  | .scalar _, _, _ => trivial
  | .array items, ho, h =>
    everyKeyItems_of_goodPaths items ho fun v hv => by
      obtain ⟨i, hi⟩ := List.mem_iff_getElem?.mp hv
      have hpart : (array items).part? (.index i) = some v := hi
      exact (h.part? hpart).2
  | .object fields, ho, h =>
    everyKeyFields_of_goodPaths fields ho.2 fun entry he => by
      have hpart : (object fields).part? (.field entry.1) = some entry.2 := ho.1.find?_of_mem he
      have hp := h.part? hpart
      exact ⟨hp.1 _ rfl, hp.2⟩

theorem everyKeyItems_of_goodPaths :
    (items : List Value) → OrderedItems items → (∀ v ∈ items, v.GoodPaths ok) →
      EveryKeyItems ok items
  | [], _, _ => trivial
  | v :: rest, ho, h =>
    ⟨everyKey_of_goodPaths v ho.1 (h v List.mem_cons_self),
      everyKeyItems_of_goodPaths rest ho.2 fun w hw => h w (List.mem_cons_of_mem v hw)⟩

theorem everyKeyFields_of_goodPaths :
    (fields : List (String × Value)) → OrderedFields fields →
      (∀ entry ∈ fields, ok entry.1 ∧ entry.2.GoodPaths ok) → EveryKeyFields ok fields
  | [], _, _ => trivial
  | (name, v) :: rest, ho, h =>
    ⟨(h (name, v) List.mem_cons_self).1,
      everyKey_of_goodPaths v ho.1 (h (name, v) List.mem_cons_self).2,
      everyKeyFields_of_goodPaths rest ho.2 fun entry he =>
        h entry (List.mem_cons_of_mem (name, v) he)⟩

end

/-- Every field name is good when the paths that resolve end in good names. -/
theorem everyKey_iff {v : Value} (hv : v.Ordered) : v.EveryKey ok ↔ v.GoodPaths ok :=
  ⟨fun h _ _ hs => h.of_get? hs, everyKey_of_goodPaths v hv⟩

/-! ## Marked fields -/

/-- At `path` there is a field with a marked name. -/
def Occurs (marked : String → Prop) (v : Value) (path : Path) : Prop :=
  ∃ before name, path = before ++ [.field name] ∧ marked name ∧ (v.get? path).isSome

variable {marked : String → Prop}

/-- There is something at a path where a field occurs. -/
theorem Occurs.isSome {v : Value} {path : Path} (h : v.Occurs marked path) :
    (v.get? path).isSome := by
  obtain ⟨-, -, -, -, hs⟩ := h
  exact hs

/-- With more names marked, more fields occur. -/
theorem Occurs.mono {other : String → Prop} (hm : ∀ name, marked name → other name) {v : Value}
    {path : Path} (h : v.Occurs marked path) : v.Occurs other path := by
  obtain ⟨before, name, hp, hn, hs⟩ := h
  exact ⟨before, name, hp, hm name hn, hs⟩

/-- Without marked fields every name is unmarked. -/
theorem everyKey_iff_not_occurs {v : Value} (hv : v.Ordered) :
    v.EveryKey (fun name => ¬ marked name) ↔ ∀ path, ¬ v.Occurs marked path := by
  rw [everyKey_iff hv]
  constructor
  · rintro h path ⟨before, name, rfl, hn, hs⟩
    exact h before name hs hn
  · intro h before name hs hn
    exact h _ ⟨before, name, rfl, hn, hs⟩

/-- The end of a path that continues another is the end of the continuation. -/
theorem Occurs.below {v w : Value} {path q : Path} (hq : q ≠ []) (hw : v.get? path = some w)
    (h : v.Occurs marked (path ++ q)) : w.Occurs marked q := by
  obtain ⟨before, name, hp, hn, hs⟩ := h
  rw [get?_append, hw, Option.bind_some] at hs
  rcases List.eq_nil_or_concat q with rfl | ⟨r, key, rfl⟩
  · exact absurd rfl hq
  · rw [List.concat_eq_append, ← List.append_assoc] at hp
    obtain ⟨-, hk⟩ := List.append_inj' hp rfl
    rw [List.concat_eq_append] at hs ⊢
    exact ⟨r, name, by rw [hk], hn, hs⟩

/-- After a write of a value without marked fields, a marked field was there before and is not below
the written path, or it is the one that was written.  Below the written path there is only what was
written, where nothing is marked. -/
theorem Occurs.of_write? {path q : Path} {v w v' : Value} (hw : v.write? path w = some v')
    (hclean : ∀ r, ¬ w.Occurs marked r) (h : v'.Occurs marked q) :
    q = path ∨ (¬ path <+: q ∧ v.Occurs marked q) := by
  by_cases hp : path <+: q
  · obtain ⟨r, rfl⟩ := hp
    by_cases hr : r = []
    · exact Or.inl (by rw [hr, List.append_nil])
    · refine absurd (h.below hr ?_) (hclean r)
      have hg := get?_of_write? hw []
      rwa [List.append_nil] at hg
  · obtain ⟨before, name, rfl, hn, hs⟩ := h
    exact Or.inr ⟨hp, before, name, rfl, hn, isSome_get?_of_write? hw hp hs⟩

/-- After a removal, a marked field was there before and is not below the removed path, or it was
one element further on behind the removed one. -/
theorem Occurs.of_remove? {path q : Path} {v v' : Value} (hv : v.Ordered)
    (hr : v.remove? path = some v') (h : v'.Occurs marked q) :
    (¬ path <+: q ∧ v.Occurs marked q) ∨
      ∃ p i j r, path = p ++ [.index i] ∧ i ≤ j ∧ q = p ++ .index j :: r ∧
        v.Occurs marked (p ++ .index (j + 1) :: r) := by
  obtain ⟨before, name, rfl, hn, hs⟩ := h
  rcases isSome_get?_of_remove? hv hr hs with ⟨hp, hs⟩ | ⟨p, i, j, r, rfl, hij, hq, hs⟩
  · exact Or.inl ⟨hp, before, name, rfl, hn, hs⟩
  · -- Behind the removed element.
    refine Or.inr ⟨p, i, j, r, rfl, hij, hq, ?_⟩
    -- The path still ends in the marked name, since the index is not its last step.
    rcases List.eq_nil_or_concat r with rfl | ⟨s, key, rfl⟩
    · obtain ⟨-, hk⟩ := List.append_inj' hq rfl
      cases hk
    · rw [List.concat_eq_append] at hq hs ⊢
      have hq' : before ++ [Key.field name] = (p ++ .index j :: s) ++ [key] := by
        rw [hq, List.append_assoc, List.cons_append]
      obtain ⟨-, hk⟩ := List.append_inj' hq' rfl
      refine ⟨p ++ .index (j + 1) :: s, name, ?_, hn, hs⟩
      rw [hk, List.append_assoc, List.cons_append]

end Expansion.Value
