import Expansion.Proofs.Fields
import Expansion.Value.Path

/-!
  Writing and removing by path.

  A write or a removal at `path ++ [key]` is a change of the container at `path`, put back in its
  place (`write?_concat`, `remove?_concat`).  So what is to be known about changes is known from two
  functions on one level, `place?` and `drop?`: when they succeed (`isSome_place?_iff`,
  `isSome_drop?`), that they keep the order of names, and what is under which key afterwards
  (`part?_of_place?`, `part?_of_place?_of_ne`, `part?_of_drop?`).

  The frame lemmas carry this to paths.  Below the written path there is what was written
  (`get?_of_write?`), and at a field elsewhere nothing that was not there before
  (`isSome_get?_of_write?`).  A removal moves the elements behind the removed one down, so a field
  found afterwards was there before, possibly one element further on (`isSome_get?_of_remove?`).
-/

namespace Expansion.Value

/-! ## Order -/

/-- Elements are in order when each of them is. -/
theorem orderedItems_iff {items : List Value} : OrderedItems items ↔ ∀ v ∈ items, v.Ordered := by
  induction items with
  | nil => simp [OrderedItems]
  | cons v rest ih => simp [OrderedItems, ih]

/-- The values of fields are in order when each of them is. -/
theorem orderedFields_iff {fields : List (String × Value)} :
    OrderedFields fields ↔ ∀ entry ∈ fields, entry.2.Ordered := by
  induction fields with
  | nil => simp [OrderedFields]
  | cons entry rest ih => simp [OrderedFields, ih]

/-- The parts of a value in order are in order. -/
theorem Ordered.part? {key : Key} {v w : Value} (h : v.Ordered) (hw : v.part? key = some w) :
    w.Ordered := by
  cases v with
  | scalar s => simp [Value.part?] at hw
  | array items =>
    obtain ⟨i, -, hi⟩ := Option.bind_eq_some_iff.mp hw
    exact orderedItems_iff.mp h w (List.mem_of_getElem? hi)
  | object fields =>
    obtain ⟨name, -, hname⟩ := Option.bind_eq_some_iff.mp hw
    exact orderedFields_iff.mp h.2 _ (Fields.mem_of_find? hname)

/-- What is found in a value in order is in order. -/
theorem Ordered.get? {path : Path} {v w : Value} (h : v.Ordered) (hw : v.get? path = some w) :
    w.Ordered := by
  induction path generalizing v with
  | nil =>
    obtain rfl : v = w := Option.some.inj hw
    exact h
  | cons key rest ih =>
    obtain ⟨u, hu, hw⟩ := Option.bind_eq_some_iff.mp hw
    exact ih (h.part? hu) hw

/-- Placing an element brings in that element and nulls, and nothing else. -/
theorem mem_placeItem {i : Nat} {w x : Value} {items : List Value} (h : x ∈ placeItem i w items) :
    x = w ∨ x = null ∨ x ∈ items := by
  simp only [placeItem] at h
  split at h
  · rcases List.mem_or_eq_of_mem_set h with h | h
    · exact Or.inr (Or.inr h)
    · exact Or.inl h
  · rcases List.mem_append.mp h with h | h
    · rcases List.mem_append.mp h with h | h
      · exact Or.inr (Or.inr h)
      · exact Or.inr (Or.inl (List.eq_of_mem_replicate h))
    · exact Or.inl (List.mem_singleton.mp h)

/-- Placing a value in order keeps the order; a new field goes where its name belongs.  The nulls
that fill a gap in an array are in order too. -/
theorem Ordered.place? {key : Key} {v w v' : Value} (h : v.Ordered) (hw : w.Ordered)
    (hp : v.place? key w = some v') : v'.Ordered := by
  cases v with
  | scalar s => simp [Value.place?] at hp
  | array items =>
    obtain ⟨i, -, rfl⟩ := Option.map_eq_some_iff.mp hp
    refine orderedItems_iff.mpr fun x hx => ?_
    rcases mem_placeItem hx with rfl | rfl | hx
    · exact hw
    · trivial
    · exact orderedItems_iff.mp h x hx
  | object fields =>
    obtain ⟨name, -, rfl⟩ := Option.map_eq_some_iff.mp hp
    refine ⟨h.1.insert name w, orderedFields_iff.mpr fun entry he => ?_⟩
    rcases Fields.mem_insert he with rfl | he
    · exact hw
    · exact orderedFields_iff.mp h.2 entry he

/-- Dropping a part keeps the order. -/
theorem Ordered.drop? {key : Key} {v v' : Value} (h : v.Ordered) (hd : v.drop? key = some v') :
    v'.Ordered := by
  cases v with
  | scalar s => simp [Value.drop?] at hd
  | array items =>
    cases key with
    | field name => simp [Value.drop?, Key.index?] at hd
    | index i =>
      simp only [Value.drop?, Key.index?, Option.bind_eq_bind, Option.bind_some] at hd
      split at hd
      · obtain rfl := Option.some.inj hd
        exact orderedItems_iff.mpr fun x hx =>
          orderedItems_iff.mp h x (List.mem_of_mem_eraseIdx hx)
      · contradiction
  | object fields =>
    cases key with
    | index i => simp [Value.drop?, Key.name?] at hd
    | field name =>
      simp only [Value.drop?, Key.name?, Option.bind_eq_bind, Option.bind_some] at hd
      obtain ⟨u, -, hd⟩ := Option.bind_eq_some_iff.mp hd
      obtain rfl := Option.some.inj hd
      exact ⟨h.1.erase name, orderedFields_iff.mpr fun entry he =>
        orderedFields_iff.mp h.2 entry (Fields.mem_of_mem_erase he)⟩

/-! ## Changes go through the container -/

/-- A part is dropped exactly where there is one. -/
theorem isSome_drop? (key : Key) (v : Value) : (v.drop? key).isSome = (v.part? key).isSome := by
  cases v with
  | scalar s => rfl
  | array items =>
    cases key with
    | field name => rfl
    | index i =>
      by_cases hi : i < items.length <;>
        simp [Value.drop?, Value.part?, Key.index?, hi]
  | object fields =>
    cases key with
    | index i => rfl
    | field name =>
      simp only [Value.drop?, Value.part?, Key.name?, Option.bind_eq_bind, Option.bind_some]
      cases Fields.find? name fields <;> rfl

/-- Where there is no part, none is dropped. -/
theorem drop?_of_part?_none {key : Key} {v : Value} (h : v.part? key = none) :
    v.drop? key = none := by
  have hs := isSome_drop? key v
  rw [h] at hs
  simpa using hs

/-- A write below a part writes in the part and places it again. -/
theorem write?_cons {key : Key} {rest : Path} {v u w : Value} (hu : v.part? key = some u) :
    v.write? (key :: rest) w = (u.write? rest w).bind (v.place? key) := by
  cases rest with
  | nil => rfl
  | cons next rest => simp [write?, hu]

/-- A value is written by placing it in its container and writing the container back.  The recursion
of a write goes from the first key down; here it is turned around, by induction on the path. -/
theorem write?_concat (path : Path) (key : Key) (v w : Value) :
    v.write? (path ++ [key]) w =
      (v.get? path).bind fun c => (c.place? key w).bind fun c' => v.write? path c' := by
  induction path generalizing v with
  | nil => simp [write?]
  | cons first rest ih =>
    show v.write? (first :: (rest ++ [key])) w = ((v.part? first).bind (Value.get? rest)).bind _
    cases hu : v.part? first with
    | none =>
      cases rest <;> simp [write?, hu]
    | some u =>
      rw [write?_cons hu, ih u, Option.bind_some, Option.bind_assoc]
      refine congrArg _ (funext fun c => ?_)
      rw [Option.bind_assoc]
      exact congrArg _ (funext fun c' => (write?_cons hu).symm)

/-- A removal below a part removes in the part and places it again. -/
theorem remove?_cons {key : Key} {rest : Path} (hr : rest ≠ []) {v u : Value}
    (hu : v.part? key = some u) :
    v.remove? (key :: rest) = (u.remove? rest).bind (v.place? key) := by
  cases rest with
  | nil => exact absurd rfl hr
  | cons next rest => simp [remove?, hu]

/-- A value is removed by dropping it from its container and writing the container back. -/
theorem remove?_concat (path : Path) (key : Key) (v : Value) :
    v.remove? (path ++ [key]) =
      (v.get? path).bind fun c => (c.drop? key).bind fun c' => v.write? path c' := by
  induction path generalizing v with
  | nil => simp [remove?, write?]
  | cons first rest ih =>
    show v.remove? (first :: (rest ++ [key])) = ((v.part? first).bind (Value.get? rest)).bind _
    cases hu : v.part? first with
    | none =>
      cases rest <;> simp [remove?, hu]
    | some u =>
      rw [remove?_cons (by simp) hu, ih u, Option.bind_some, Option.bind_assoc]
      refine congrArg _ (funext fun c => ?_)
      rw [Option.bind_assoc]
      exact congrArg _ (funext fun c' => (write?_cons hu).symm)

/-- Nothing is removed where nothing is. -/
theorem remove?_of_get?_none {path : Path} {v : Value} (h : v.get? path = none) :
    v.remove? path = none := by
  rcases List.eq_nil_or_concat path with rfl | ⟨path, key, rfl⟩
  · rfl
  · rw [List.concat_eq_append] at h ⊢
    rw [get?_append] at h
    rw [remove?_concat]
    cases hc : v.get? path with
    | none => rfl
    | some c =>
      have hpart : c.part? key = none := by
        rw [hc] at h
        cases hp : c.part? key with
        | none => rfl
        | some w => simp [Value.get?, hp] at h
      rw [Option.bind_some, drop?_of_part?_none hpart]
      rfl

/-- A container takes a part under a key of its own sort.  Which value is placed there does not
matter, nor whether there is a part already. -/
theorem isSome_place?_iff {v w : Value} {key : Key} :
    (v.place? key w).isSome ↔
      (∃ fields name, v = .object fields ∧ key = .field name) ∨
        ∃ items i, v = .array items ∧ key = .index i := by
  cases v with
  | scalar s => simp [Value.place?]
  | array items => cases key <;> simp [Value.place?, Key.index?]
  | object fields => cases key <;> simp [Value.place?, Key.name?]

/-- A changed part goes back into its container: a path that resolves leads through containers that
take their keys. -/
theorem isSome_write?_of_get? {path : Path} {v c : Value} (h : v.get? path = some c) (w : Value) :
    (v.write? path w).isSome := by
  induction path generalizing v with
  | nil => rfl
  | cons key rest ih =>
    obtain ⟨u, hu, hc⟩ := Option.bind_eq_some_iff.mp h
    obtain ⟨u', hu'⟩ := Option.isSome_iff_exists.mp (ih hc)
    rw [write?_cons hu, hu', Option.bind_some, isSome_place?_iff]
    cases v with
    | scalar s => simp [Value.part?] at hu
    | array items =>
      cases key with
      | field name => simp [Value.part?, Key.index?] at hu
      | index i => exact Or.inr ⟨items, i, rfl, rfl⟩
    | object fields =>
      cases key with
      | field name => exact Or.inl ⟨fields, name, rfl, rfl⟩
      | index i => simp [Value.part?, Key.name?] at hu

/-- A write succeeds at the root and in a container that takes the last key.  The containers above
take what is written back, since the path to them resolves. -/
theorem isSome_write?_iff {path : Path} {v w : Value} :
    (v.write? path w).isSome ↔
      path = [] ∨ ∃ before key c, path = before ++ [key] ∧ v.get? before = some c ∧
        ((∃ fields name, c = .object fields ∧ key = .field name) ∨
          ∃ items i, c = .array items ∧ key = .index i) := by
  rcases List.eq_nil_or_concat path with rfl | ⟨p, k, rfl⟩
  · simp [write?]
  rw [List.concat_eq_append, write?_concat]
  constructor
  · intro h
    obtain ⟨v', hv'⟩ := Option.isSome_iff_exists.mp h
    obtain ⟨c, hc, hv'⟩ := Option.bind_eq_some_iff.mp hv'
    obtain ⟨c', hc', -⟩ := Option.bind_eq_some_iff.mp hv'
    exact Or.inr ⟨p, k, c, rfl, hc, isSome_place?_iff.mp (Option.isSome_iff_exists.mpr ⟨c', hc'⟩)⟩
  · -- The last key and the path before it are read off the path.
    rintro (h | ⟨before, key, c, h, hc, hkey⟩)
    · simp at h
    · obtain ⟨rfl, hk⟩ := List.append_inj' h rfl
      obtain rfl : k = key := List.cons.inj hk |>.1
      obtain ⟨c', hc'⟩ := Option.isSome_iff_exists.mp (isSome_place?_iff (w := w) |>.mpr hkey)
      rw [hc, Option.bind_some, hc', Option.bind_some]
      exact isSome_write?_of_get? hc c'

/-- A removal succeeds below the root, where there is a part.  That the container can be written
back follows from the path leading to it. -/
theorem isSome_remove?_iff {path : Path} {v : Value} :
    (v.remove? path).isSome ↔ path ≠ [] ∧ (v.get? path).isSome := by
  rcases List.eq_nil_or_concat path with rfl | ⟨p, k, rfl⟩
  · simp [remove?]
  rw [List.concat_eq_append, remove?_concat, get?_append]
  cases hc : v.get? p with
  | none => simp
  | some c =>
    -- The container is there, so it is written back whatever was dropped.
    have hs := isSome_drop? k c
    have hw : ∀ c', (v.write? p c').isSome := isSome_write?_of_get? hc
    rw [Option.bind_some, Option.bind_some]
    show _ ↔ _ ∧ ((c.part? k).bind some).isSome
    rw [Option.bind_fun_some]
    cases hd : c.drop? k with
    | none => simp [← hs, hd]
    | some c' => simp [← hs, hd, hw c']

/-- A write below the first step changes a part that is there. -/
theorem part?_of_write?_cons {key : Key} {rest : Path} (hr : rest ≠ []) {v w v' : Value}
    (h : v.write? (key :: rest) w = some v') :
    ∃ u u', v.part? key = some u ∧ u.write? rest w = some u' ∧ v.place? key u' = some v' := by
  cases rest with
  | nil => exact absurd rfl hr
  | cons next rest =>
    simp only [write?, Option.bind_eq_bind] at h
    obtain ⟨u, hu, h⟩ := Option.bind_eq_some_iff.mp h
    obtain ⟨u', hu', h⟩ := Option.bind_eq_some_iff.mp h
    exact ⟨u, u', hu, hu', h⟩

/-- A write of a value in order keeps the order, by induction on the path. -/
theorem Ordered.write? {path : Path} {v w v' : Value} (h : v.Ordered) (hw : w.Ordered)
    (hp : v.write? path w = some v') : v'.Ordered := by
  induction path generalizing v v' with
  | nil =>
    obtain rfl : w = v' := Option.some.inj hp
    exact hw
  | cons key rest ih =>
    by_cases hr : rest = []
    · subst hr
      exact h.place? hw hp
    · obtain ⟨u, u', hu, hu', hp⟩ := part?_of_write?_cons hr hp
      exact h.place? (ih (h.part? hu) hu') hp

/-- A removal keeps the order: it drops a part and writes the container back. -/
theorem Ordered.remove? {path : Path} {v v' : Value} (h : v.Ordered)
    (hp : v.remove? path = some v') : v'.Ordered := by
  rcases List.eq_nil_or_concat path with rfl | ⟨path, key, rfl⟩
  · simp [Value.remove?] at hp
  · rw [List.concat_eq_append, remove?_concat] at hp
    obtain ⟨c, hc, hp⟩ := Option.bind_eq_some_iff.mp hp
    obtain ⟨c', hc', hp⟩ := Option.bind_eq_some_iff.mp hp
    exact h.write? ((h.get? hc).drop? hc') hp

/-! ## What is found after a change -/

/-- Under its key is what was placed there. -/
theorem part?_of_place? {key : Key} {v w v' : Value} (h : v.place? key w = some v') :
    v'.part? key = some w := by
  cases v with
  | scalar s => simp [Value.place?] at h
  | array items =>
    cases key with
    | field name => simp [Value.place?, Key.index?] at h
    | index i =>
      obtain rfl := Option.some.inj h
      show (placeItem i w items)[i]? = some w
      by_cases hi : i < items.length
      · simp [placeItem, hi]
      · -- The nulls end just before `i`.
        have hlen : (items ++ List.replicate (i - items.length) null).length = i := by
          simp only [List.length_append, List.length_replicate]
          omega
        rw [placeItem, if_neg hi, List.getElem?_append_right (by omega), hlen, Nat.sub_self]
        rfl
  | object fields =>
    cases key with
    | index i => simp [Value.place?, Key.name?] at h
    | field name =>
      obtain rfl := Option.some.inj h
      exact Fields.find?_insert_self name w fields

/-- Under another key is what was there, or a null that fills a gap.  The nulls come only in an
array, below the new position and beyond the old elements. -/
theorem part?_of_place?_of_ne {key k : Key} {v w v' c : Value} (h : v.place? key w = some v')
    (hk : k ≠ key) (hc : v'.part? k = some c) :
    v.part? k = some c ∨ (c = null ∧ k.name? = none) := by
  cases v with
  | scalar s => simp [Value.place?] at h
  | array items =>
    cases key with
    | field name => simp [Value.place?, Key.index?] at h
    | index i =>
      obtain rfl := Option.some.inj h
      cases k with
      | field name => simp [Value.part?, Key.index?] at hc
      | index j =>
        have hij : j ≠ i := fun e => hk (e ▸ rfl)
        have hc : (placeItem i w items)[j]? = some c := hc
        show items[j]? = some c ∨ _
        by_cases hi : i < items.length
        · rw [placeItem, if_pos hi, List.getElem?_set_ne (Ne.symm hij)] at hc
          exact Or.inl hc
        · rw [placeItem, if_neg hi] at hc
          by_cases hj : j < items.length
          · rw [List.append_assoc, List.getElem?_append_left hj] at hc
            exact Or.inl hc
          · -- Beyond the old elements there are only the nulls before `w` and `w` itself.
            refine Or.inr ⟨?_, rfl⟩
            obtain ⟨hlt, -⟩ := List.getElem?_eq_some_iff.mp hc
            simp only [List.length_append, List.length_replicate, List.length_singleton] at hlt
            rw [List.append_assoc, List.getElem?_append_right (by omega),
              List.getElem?_append_left (by simp only [List.length_replicate]; omega),
              List.getElem?_replicate] at hc
            simp at hc
            exact hc.2.symm
  | object fields =>
    cases key with
    | index i => simp [Value.place?, Key.name?] at h
    | field name =>
      obtain rfl := Option.some.inj h
      cases k with
      | index j => simp [Value.part?, Key.name?] at hc
      | field other =>
        have hne : other ≠ name := fun e => hk (e ▸ rfl)
        left
        have hc : Fields.find? other (Fields.insert name w fields) = some c := hc
        rwa [Fields.find?_insert_of_ne hne] at hc

/-- Below the written path is what was written. -/
theorem get?_of_write? {path : Path} {v w v' : Value} (h : v.write? path w = some v')
    (q : Path) : v'.get? (path ++ q) = w.get? q := by
  induction path generalizing v v' with
  | nil =>
    obtain rfl : w = v' := Option.some.inj h
    rfl
  | cons key rest ih =>
    by_cases hr : rest = []
    · subst hr
      show (v'.part? key).bind (Value.get? q) = _
      rw [part?_of_place? h]
      rfl
    · obtain ⟨u, u', hu, hu', hp⟩ := part?_of_write?_cons hr h
      show (v'.part? key).bind (Value.get? (rest ++ q)) = _
      rw [part?_of_place? hp, Option.bind_some, ih hu']

/-- A field elsewhere was there before the write.  The two paths part at some step; up to there the
write goes into the same parts, by induction on its path, and after it the field is under another
key. -/
theorem isSome_get?_of_write? {path before : Path} {name : String} {v w v' : Value}
    (h : v.write? path w = some v') (hq : ¬ path <+: before ++ [.field name])
    (hs : (v'.get? (before ++ [.field name])).isSome) :
    (v.get? (before ++ [.field name])).isSome := by
  induction path generalizing v v' before with
  | nil => exact absurd List.nil_prefix hq
  | cons key rest ih =>
    -- Something is placed under the first key: `w` itself, or the part there with `w` below it.
    obtain ⟨u', hp, hrest⟩ : ∃ u', v.place? key u' = some v' ∧
        (rest ≠ [] → ∃ u, v.part? key = some u ∧ u.write? rest w = some u') := by
      by_cases hr : rest = []
      · subst hr
        exact ⟨w, h, fun hne => absurd rfl hne⟩
      · obtain ⟨u, u', hu, hu', hp⟩ := part?_of_write?_cons hr h
        exact ⟨u', hp, fun _ => ⟨u, hu, hu'⟩⟩
    obtain ⟨k, q, hk⟩ : ∃ k q, before ++ [Key.field name] = k :: q := by
      cases before with
      | nil => exact ⟨_, _, rfl⟩
      | cons k before => exact ⟨_, _, rfl⟩
    rw [hk] at hq hs ⊢
    obtain ⟨c, hc⟩ := Option.isSome_iff_exists.mp hs
    obtain ⟨d, hd, hc⟩ := Option.bind_eq_some_iff.mp hc
    -- Either both paths go on into the same part, or they part here.
    by_cases hkey : k = key
    · subst hkey
      have hrest' : ¬ rest <+: q := fun hpre => hq (List.cons_prefix_cons.mpr ⟨rfl, hpre⟩)
      have hr : rest ≠ [] := fun e => hrest' (e ▸ List.nil_prefix)
      obtain ⟨u, hu, hw⟩ := hrest hr
      obtain rfl : u' = d := Option.some.inj ((part?_of_place? hp).symm.trans hd)
      show ((v.part? k).bind (Value.get? q)).isSome
      rw [hu, Option.bind_some]
      cases before with
      | nil =>
        obtain ⟨-, rfl⟩ := List.cons.inj hk
        rfl
      | cons _ before =>
        obtain ⟨-, rfl⟩ := List.cons.inj hk
        exact ih hw hrest' (Option.isSome_iff_exists.mpr ⟨c, hc⟩)
    · show ((v.part? k).bind (Value.get? q)).isSome
      rcases part?_of_place?_of_ne hp hkey hd with hv | ⟨rfl, hname⟩
      · simp [hv, hc]
      · -- A null that fills a gap has no parts, and the path goes on to a field.
        cases before with
        | nil =>
          obtain ⟨rfl, -⟩ := List.cons.inj hk
          simp [Key.name?] at hname
        | cons _ before =>
          obtain ⟨-, rfl⟩ := List.cons.inj hk
          cases before with
          | nil => cases hc
          | cons _ _ => cases hc

/-- After a part is dropped, the parts under other keys are as they were, but the elements after it
are one down. -/
theorem part?_of_drop? {key k : Key} {v v' c : Value} (hv : v.Ordered)
    (h : v.drop? key = some v') (hc : v'.part? k = some c) :
    (k ≠ key ∧ v.part? k = some c) ∨
      ∃ i j, key = .index i ∧ k = .index j ∧ i ≤ j ∧ v.part? (.index (j + 1)) = some c := by
  cases v with
  | scalar s => simp [Value.drop?] at h
  | array items =>
    cases key with
    | field name => simp [Value.drop?, Key.index?] at h
    | index i =>
      simp only [Value.drop?, Key.index?, Option.bind_eq_bind, Option.bind_some] at h
      split at h
      · obtain rfl := Option.some.inj h
        cases k with
        | field name => simp [Value.part?, Key.index?] at hc
        | index j =>
          have hc : (items.eraseIdx i)[j]? = some c := hc
          -- Elements before the dropped one stay; the later ones were one further on.
          by_cases hij : j < i
          · rw [List.getElem?_eraseIdx_of_lt hij] at hc
            exact Or.inl ⟨fun e => by cases e; omega, hc⟩
          · rw [List.getElem?_eraseIdx_of_ge (by omega)] at hc
            exact Or.inr ⟨i, j, rfl, rfl, by omega, hc⟩
      · contradiction
  | object fields =>
    cases key with
    | index i => simp [Value.drop?, Key.name?] at h
    | field name =>
      simp only [Value.drop?, Key.name?, Option.bind_eq_bind, Option.bind_some] at h
      obtain ⟨u, hu, h⟩ := Option.bind_eq_some_iff.mp h
      obtain rfl := Option.some.inj h
      cases k with
      | index j => simp [Value.part?, Key.name?] at hc
      | field other =>
        left
        have hc : Fields.find? other (Fields.erase name fields) = some c := hc
        obtain ⟨hne, hf⟩ := Fields.find?_of_find?_erase hv.1 hc
        exact ⟨fun e => hne (Key.field.inj e), hf⟩

/-- A field found after a removal was there before, outside what was removed; behind a removed
element it was one element further on. -/
theorem isSome_get?_of_remove? {path before : Path} {name : String} {v v' : Value}
    (hv : v.Ordered) (h : v.remove? path = some v')
    (hs : (v'.get? (before ++ [.field name])).isSome) :
    (¬ path <+: before ++ [.field name] ∧ (v.get? (before ++ [.field name])).isSome) ∨
      ∃ p i j q, path = p ++ [.index i] ∧ i ≤ j ∧ before ++ [.field name] = p ++ .index j :: q ∧
        (v.get? (p ++ .index (j + 1) :: q)).isSome := by
  rcases List.eq_nil_or_concat path with rfl | ⟨p, key, rfl⟩
  · simp [Value.remove?] at h
  rw [List.concat_eq_append] at h ⊢
  rw [remove?_concat] at h
  obtain ⟨c, hc, h⟩ := Option.bind_eq_some_iff.mp h
  obtain ⟨c', hc', h⟩ := Option.bind_eq_some_iff.mp h
  -- Outside the container nothing moves; inside, the field is below a part that is left.
  by_cases hp : p <+: before ++ [.field name]
  · obtain ⟨s, hs'⟩ := hp
    rw [← hs'] at hs ⊢
    rw [get?_of_write? h] at hs
    rw [get?_append, hc, Option.bind_some]
    cases s with
    | nil =>
      refine Or.inl ⟨fun hpre => ?_, rfl⟩
      have hlen := hpre.length_le
      simp only [List.length_append, List.length_cons, List.length_nil] at hlen
      omega
    | cons k q =>
      obtain ⟨x, hx⟩ := Option.isSome_iff_exists.mp hs
      obtain ⟨d, hd, hq⟩ := Option.bind_eq_some_iff.mp hx
      rcases part?_of_drop? (hv.get? hc) hc' hd with ⟨hk, hd⟩ | ⟨i, j, rfl, rfl, hij, hd⟩
      · -- The part is under another key than the removed one, so its field is not below that.
        refine Or.inl ⟨fun hpre => ?_, ?_⟩
        · have hpre := (List.prefix_append_right_inj p).mp hpre
          exact hk (List.cons_prefix_cons.mp hpre).1.symm
        · show ((c.part? k).bind (Value.get? q)).isSome
          simp [hd, hq]
      · refine Or.inr ⟨p, i, j, q, rfl, hij, rfl, ?_⟩
        rw [get?_append, hc, Option.bind_some]
        show ((c.part? _).bind (Value.get? q)).isSome
        simp [hd, hq]
  · refine Or.inl ⟨fun hpre => ?_, isSome_get?_of_write? h hp hs⟩
    exact hp ((List.prefix_append p [key]).trans hpre)

end Expansion.Value
