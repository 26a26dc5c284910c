import Expansion.Proofs.Value.Occurrences

/-!
  Removing many parts of a value.

  `without gone` takes out all parts at once whose paths are `gone`, and leaves the rest in order.
  Parts that are removed one after the other are removed at once, when no removal disturbs a path
  that is still to come (`Path.Spares`): the paths lead where they led, and in what is left the
  other parts are removed as they would be in the whole (`without_of_remove?`, by induction on the
  path).

  A removal acts at one place of a row of elements or of fields.  So each step of the argument looks
  at the row as what is before that place, the part there, and what is after it (`part?_cases`,
  `drop?_cases`, `place?_cases`), and asks what is gone from each of the three.  For elements the
  third one moves up, which is harmless because nothing is gone from it: that is what sparing says.

  `prune marked` takes out the objects with a marked field, which are the parts at the paths of the
  `wrappers` (`mem_wrappers_iff`, `without_eq_prune`).  So they may be removed one after the other,
  in an order in which they spare each other (`removeEach?_eq_prune`).
-/

namespace Expansion

/-- The removal of the part at the first path leaves the second one leading where it led: not to the
part or into it, and not to an element that comes after it in its array. -/
structure Path.Spares (p q : Path) : Prop where
  outside : ¬ p <+: q
  earlier : ∀ before i j rest, p = before ++ [.index i] → q = before ++ .index j :: rest → j < i

/-- Below a key that both paths start with, the rest of the one spares the rest of the other. -/
theorem Path.Spares.tail {key : Key} {p q : Path} (h : Path.Spares (key :: p) (key :: q)) :
    Path.Spares p q where
  outside := fun hpre => h.outside (List.cons_prefix_cons.mpr ⟨rfl, hpre⟩)
  earlier := by
    rintro before i j rest rfl rfl
    exact h.earlier (key :: before) i j rest rfl rfl

namespace Value

mutual

/-- The value without the parts whose paths are gone. -/
def without (gone : Path → Bool) : Value → Value
  | scalar s => scalar s
  | array items => array (withoutItems gone 0 items)
  | object fields => object (withoutFields gone fields)

/-- The elements, counted from `i`, without those that are gone. -/
def withoutItems (gone : Path → Bool) (i : Nat) : List Value → List Value
  | [] => []
  | v :: rest =>
    if gone [.index i] then withoutItems gone (i + 1) rest
    else v.without (fun p => gone (.index i :: p)) :: withoutItems gone (i + 1) rest

/-- The fields without those that are gone. -/
def withoutFields (gone : Path → Bool) : List (String × Value) → List (String × Value)
  | [] => []
  | (name, v) :: rest =>
    if gone [.field name] then withoutFields gone rest
    else (name, v.without fun p => gone (.field name :: p)) :: withoutFields gone rest

end

variable {gone gone' : Path → Bool} {key : Key} {path : Path} {v v' u u' : Value}

/-! ## Rows of parts -/

/-- What is left of a row of elements, in two pieces: the second one counts on from the length of
the first. -/
theorem withoutItems_append (i : Nat) (before after : List Value) :
    withoutItems gone i (before ++ after)
      = withoutItems gone i before ++ withoutItems gone (i + before.length) after := by
  induction before generalizing i with
  | nil => rfl
  | cons v rest ih =>
    have hi : i + 1 + rest.length = i + (v :: rest).length := by
      rw [List.length_cons]
      omega
    rw [List.cons_append, withoutItems, withoutItems, ih, hi]
    split
    · rfl
    · rfl

/-- What is left of a row of fields, in two pieces. -/
theorem withoutFields_append (before after : List (String × Value)) :
    withoutFields gone (before ++ after)
      = withoutFields gone before ++ withoutFields gone after := by
  induction before with
  | nil => rfl
  | cons entry rest ih =>
    rw [List.cons_append, withoutFields, withoutFields, ih]
    split
    · rfl
    · rfl

/-- What is left of elements depends on what is gone at and below them. -/
theorem withoutItems_congr {i : Nat} {items : List Value}
    (h : ∀ j, i ≤ j → j < i + items.length → ∀ p, gone (.index j :: p) = gone' (.index j :: p)) :
    withoutItems gone i items = withoutItems gone' i items := by
  induction items generalizing i with
  | nil => rfl
  | cons v rest ih =>
    have hlen : (v :: rest).length = rest.length + 1 := List.length_cons
    have hfirst : ∀ p, gone (.index i :: p) = gone' (.index i :: p) :=
      h i (Nat.le_refl i) (by omega)
    have hrest : withoutItems gone (i + 1) rest = withoutItems gone' (i + 1) rest :=
      ih fun j hle hlt => h j (by omega) (by omega)
    rw [withoutItems, withoutItems, hfirst [], hrest, funext hfirst]

/-- What is left of fields depends on what is gone at and below them. -/
theorem withoutFields_congr {fields : List (String × Value)}
    (h : ∀ entry ∈ fields, ∀ p, gone (.field entry.1 :: p) = gone' (.field entry.1 :: p)) :
    withoutFields gone fields = withoutFields gone' fields := by
  induction fields with
  | nil => rfl
  | cons entry rest ih =>
    obtain ⟨hfirst, hrest⟩ := List.forall_mem_cons.mp h
    rw [withoutFields, withoutFields, hfirst [], ih hrest, funext hfirst]

mutual

/-- Nothing is taken out when nothing is gone. -/
theorem without_none : (v : Value) → v.without (fun _ => false) = v
  | scalar _ => rfl
  | array items => congrArg array (withoutItems_none 0 items)
  | object fields => congrArg object (withoutFields_none fields)

/-- No element is taken out when nothing is gone. -/
theorem withoutItems_none (i : Nat) :
    (items : List Value) → withoutItems (fun _ => false) i items = items
  | [] => rfl
  | v :: rest => by rw [withoutItems, if_neg Bool.false_ne_true, without_none v,
      withoutItems_none (i + 1) rest]

/-- No field is taken out when nothing is gone. -/
theorem withoutFields_none :
    (fields : List (String × Value)) → withoutFields (fun _ => false) fields = fields
  | [] => rfl
  | (name, v) :: rest => by rw [withoutFields, if_neg Bool.false_ne_true, without_none v,
      withoutFields_none rest]

end

/-- Elements stay as they are when nothing at or below them is gone. -/
theorem withoutItems_eq_self {i : Nat} {items : List Value}
    (h : ∀ j, i ≤ j → ∀ p, gone (.index j :: p) = false) : withoutItems gone i items = items := by
  have hnone : withoutItems gone i items = withoutItems (fun _ => false) i items :=
    withoutItems_congr fun j hle _ p => h j hle p
  rw [hnone, withoutItems_none]

/-! ## One removal -/

/-- An element stands after as many as its position says. -/
theorem split_of_getElem? {i : Nat} {items : List Value} (h : items[i]? = some u) :
    ∃ before after, items = before ++ u :: after ∧ before.length = i := by
  obtain ⟨hlt, rfl⟩ := List.getElem?_eq_some_iff.mp h
  refine ⟨items.take i, items.drop (i + 1), ?_, ?_⟩
  · rw [List.getElem_cons_drop, List.take_append_drop]
  · rw [List.length_take]
    omega

/-- A part is an element or a field, with others before and after it.  Both kinds of container are
split in the same way, so that what is said of the row before and after the part is said once. -/
theorem part?_cases (h : v.part? key = some u) :
    (∃ before after, v = array (before ++ u :: after) ∧ key = .index before.length) ∨
      ∃ before name after, v = object (before ++ (name, u) :: after) ∧ key = .field name ∧
        ∀ entry ∈ before, entry.1 ≠ name := by
  cases v with
  | scalar s => cases h
  | array items =>
    obtain ⟨i, hkey, hi⟩ := Option.bind_eq_some_iff.mp h
    obtain ⟨before, after, rfl, rfl⟩ := split_of_getElem? hi
    cases key with
    | field name => cases hkey
    | index j =>
      obtain rfl : j = before.length := Option.some.inj hkey
      exact Or.inl ⟨before, after, rfl, rfl⟩
  | object fields =>
    obtain ⟨name, hkey, hname⟩ := Option.bind_eq_some_iff.mp h
    obtain ⟨before, after, rfl, hbefore⟩ := Fields.split_of_find? hname
    cases key with
    | index i => cases hkey
    | field other =>
      obtain rfl : other = name := Option.some.inj hkey
      exact Or.inr ⟨before, other, after, rfl, rfl, hbefore⟩

/-- What is before and after a part that is dropped closes up.  Where a dropped element was, the
next one is found. -/
theorem drop?_cases (h : v.drop? key = some v') :
    (∃ before u after, v = array (before ++ u :: after) ∧ key = .index before.length ∧
        v' = array (before ++ after)) ∨
      ∃ before name u after, v = object (before ++ (name, u) :: after) ∧ key = .field name ∧
        v' = object (before ++ after) := by
  obtain ⟨u, hu⟩ : ∃ u, v.part? key = some u := by
    rw [← Option.isSome_iff_exists, ← isSome_drop?, h]
    rfl
  rcases part?_cases hu with ⟨before, after, rfl, rfl⟩ | ⟨before, name, after, rfl, rfl, hbefore⟩
  · have hlt : before.length < (before ++ u :: after).length := by
      rw [List.length_append, List.length_cons]
      omega
    have herase : (before ++ u :: after).eraseIdx before.length = before ++ after := by
      rw [List.eraseIdx_append_of_length_le (Nat.le_refl _), Nat.sub_self]
      rfl
    simp only [drop?, Key.index?, Option.bind_eq_bind, Option.bind_some, if_pos hlt, herase] at h
    exact Or.inl ⟨before, u, after, rfl, rfl, (Option.some.inj h).symm⟩
  · simp only [drop?, Key.name?, Option.bind_eq_bind, Option.bind_some,
      Fields.find?_append_cons hbefore, Fields.erase_append_cons hbefore] at h
    exact Or.inr ⟨before, name, u, after, rfl, rfl, (Option.some.inj h).symm⟩

/-- An element is replaced at its position. -/
theorem place?_index (before after : List Value) (u u' : Value) :
    (array (before ++ u :: after)).place? (.index before.length) u'
      = some (array (before ++ u' :: after)) := by
  have hlt : before.length < (before ++ u :: after).length := by
    rw [List.length_append, List.length_cons]
    omega
  have hset : (before ++ u :: after).set before.length u' = before ++ u' :: after := by
    rw [List.set_append_right _ _ (Nat.le_refl _), Nat.sub_self]
    rfl
  simp only [place?, Key.index?, Option.map_some, placeItem, if_pos hlt, hset]

/-- A field is replaced where it stands. -/
theorem place?_field {before after : Fields Value} {name : String}
    (h : Fields.Ordered (before ++ (name, u) :: after)) (u' : Value) :
    (object (before ++ (name, u) :: after)).place? (.field name) u'
      = some (object (before ++ (name, u') :: after)) := by
  simp only [place?, Key.name?, Option.map_some, Fields.insert_append_cons h]

/-- What is before and after a part stays when another is put in its place.  The object has to be in
order: there a field is replaced where it stands, and not filed anew. -/
theorem place?_cases (hv : v.Ordered) (hu : v.part? key = some u) (h : v.place? key u' = some v') :
    (∃ before after, v = array (before ++ u :: after) ∧ key = .index before.length ∧
        v' = array (before ++ u' :: after)) ∨
      ∃ before name after, v = object (before ++ (name, u) :: after) ∧ key = .field name ∧
        v' = object (before ++ (name, u') :: after) := by
  rcases part?_cases hu with ⟨before, after, rfl, rfl⟩ | ⟨before, name, after, rfl, rfl, -⟩
  · rw [place?_index] at h
    exact Or.inl ⟨before, after, rfl, rfl, (Option.some.inj h).symm⟩
  · rw [place?_field hv.1] at h
    exact Or.inr ⟨before, name, after, rfl, rfl, (Option.some.inj h).symm⟩

/-- The paths that are gone, with one more. -/
def orGone (p : Path) (gone : Path → Bool) (q : Path) : Bool := decide (q = p) || gone q

/-- The path that was added is gone. -/
theorem orGone_self (p : Path) (gone : Path → Bool) : orGone p gone p = true := by
  simp [orGone]

/-- Of other paths the same ones are gone. -/
theorem orGone_of_ne {p q : Path} (h : q ≠ p) : orGone p gone q = gone q := by
  simp [orGone, h]

/-- A part that is dropped is gone, and the others stay where `gone` looks for them.  The row is
before, the part, and after: before nothing changes, and of what comes after an element nothing is
gone, so it may move up. -/
theorem without_of_drop? (hv : v.Ordered) (h : v.drop? key = some v')
    (hs : ∀ q, gone q = true → Path.Spares [key] q) :
    v'.without gone = v.without (orGone [key] gone) := by
  rcases drop?_cases h with
    ⟨before, u, after, rfl, rfl, rfl⟩ | ⟨before, name, u, after, rfl, rfl, rfl⟩
  · -- Nothing is gone from the element on, and so nothing in what moves up.
    have hlater : ∀ j, before.length ≤ j → ∀ p, gone (.index j :: p) = false := by
      intro j hle p
      refine Bool.eq_false_iff.mpr fun hg => ?_
      have hlt : j < before.length := (hs _ hg).earlier [] before.length j p rfl rfl
      omega
    have hother : ∀ j, j ≠ before.length → ∀ p,
        orGone [.index before.length] gone (.index j :: p) = gone (.index j :: p) := by
      intro j hne p
      refine orGone_of_ne fun heq => hne ?_
      exact Key.index.inj (List.cons.inj heq).1
    have hbefore : withoutItems (orGone [.index before.length] gone) 0 before
        = withoutItems gone 0 before :=
      withoutItems_congr fun j _ hlt p => hother j (by omega) p
    have hafter : withoutItems (orGone [.index before.length] gone) (before.length + 1) after
        = after := by
      refine withoutItems_eq_self fun j hle p => ?_
      rw [hother j (by omega) p]
      exact hlater j (by omega) p
    have hmoved : withoutItems gone before.length after = after :=
      withoutItems_eq_self fun j hle p => hlater j hle p
    rw [without, without, withoutItems_append, withoutItems_append, Nat.zero_add, hmoved, hbefore,
      withoutItems, if_pos (orGone_self _ _), hafter]
  · -- Fields do not move: the others are found by their names, which are different.
    have hother : ∀ other, other ≠ name → ∀ p,
        orGone [.field name] gone (.field other :: p) = gone (.field other :: p) := by
      intro other hne p
      refine orGone_of_ne fun heq => hne ?_
      exact Key.field.inj (List.cons.inj heq).1
    have hbefore : withoutFields (orGone [.field name] gone) before = withoutFields gone before :=
      withoutFields_congr fun entry he p =>
        hother entry.1 (String.ne_of_lt (hv.1.ne_of_mem_before entry he)) p
    have hafter : withoutFields (orGone [.field name] gone) after = withoutFields gone after :=
      withoutFields_congr fun entry he p =>
        hother entry.1 (String.ne_of_lt (hv.1.lt_of_mem_after entry he)).symm p
    rw [without, without, withoutFields_append, withoutFields_append, hbefore, withoutFields,
      if_pos (orGone_self _ _), hafter]

/-- A part that is changed inside is left as it is left inside, and the others are not concerned. -/
theorem without_of_place? (hv : v.Ordered) (hu : v.part? key = some u)
    (h : v.place? key u' = some v') (hown : gone [key] = gone' [key])
    (hinner : (u'.without fun p => gone (key :: p)) = u.without fun p => gone' (key :: p))
    (hother : ∀ k, k ≠ key → ∀ p, gone (k :: p) = gone' (k :: p)) :
    v'.without gone = v.without gone' := by
  rcases place?_cases hv hu h with
    ⟨before, after, rfl, rfl, rfl⟩ | ⟨before, name, after, rfl, rfl, rfl⟩
  · -- An element is changed inside; those before and after it are others.
    have hne : ∀ j, j ≠ before.length → Key.index j ≠ .index before.length :=
      fun j hne heq => hne (Key.index.inj heq)
    have hbefore : withoutItems gone 0 before = withoutItems gone' 0 before :=
      withoutItems_congr fun j _ hlt p => hother _ (hne j (by omega)) p
    have hafter : withoutItems gone (before.length + 1) after
        = withoutItems gone' (before.length + 1) after :=
      withoutItems_congr fun j hle _ p => hother _ (hne j (by omega)) p
    rw [without, without, withoutItems_append, withoutItems_append, Nat.zero_add, hbefore,
      withoutItems, withoutItems, hown, hinner, hafter]
  · -- A field is changed inside; the names before and after it are others.
    have hne : ∀ other, other ≠ name → Key.field other ≠ .field name :=
      fun other hne heq => hne (Key.field.inj heq)
    have hbefore : withoutFields gone before = withoutFields gone' before :=
      withoutFields_congr fun entry he p =>
        hother _ (hne _ (String.ne_of_lt (hv.1.ne_of_mem_before entry he))) p
    have hafter : withoutFields gone after = withoutFields gone' after :=
      withoutFields_congr fun entry he p =>
        hother _ (hne _ (String.ne_of_lt (hv.1.lt_of_mem_after entry he)).symm) p
    rw [without, without, withoutFields_append, withoutFields_append, hbefore, withoutFields,
      withoutFields, hown, hinner, hafter]

/-- In what a removal leaves, other parts are gone as they would be with it from the whole.  By
induction on the path: at its last key a part is dropped, and above that a part is changed inside.
-/
theorem without_of_remove? (hv : v.Ordered) (h : v.remove? path = some v')
    (hs : ∀ q, gone q = true → Path.Spares path q) :
    v'.without gone = v.without (orGone path gone) := by
  induction path generalizing v v' gone with
  | nil => cases h
  | cons key rest ih =>
    by_cases hrest : rest = []
    · subst hrest
      exact without_of_drop? hv h hs
    · obtain ⟨u, hu⟩ : ∃ u, v.part? key = some u := by
        have hsome := (isSome_remove?_iff.mp (Option.isSome_iff_exists.mpr ⟨v', h⟩)).2
        obtain ⟨w, hw⟩ := Option.isSome_iff_exists.mp hsome
        obtain ⟨u, hu, -⟩ := Option.bind_eq_some_iff.mp hw
        exact ⟨u, hu⟩
      rw [remove?_cons hrest hu] at h
      obtain ⟨u', hu', hplace⟩ := Option.bind_eq_some_iff.mp h
      -- In the part that is changed, what is gone is gone below the key.
      have hinner := ih (hv.part? hu) hu' fun q hq => (hs (key :: q) hq).tail
      refine without_of_place? hv hu hplace ?_ (hinner.trans ?_) fun k hk p => ?_
      · have hne : [key] ≠ key :: rest := fun heq => hrest (List.cons.inj heq).2.symm
        exact (orGone_of_ne hne).symm
      · refine congrArg (u.without ·) (funext fun p => ?_)
        simp [orGone]
      · have hne : k :: p ≠ key :: rest := fun heq => hk (List.cons.inj heq).1
        exact (orGone_of_ne hne).symm

/-! ## Removals one after the other -/

/-- A part that a dropped one does not stand before is found as before. -/
theorem part?_of_drop?_of_spares {k : Key} {rest : Path} (hv : v.Ordered)
    (h : v.drop? key = some v') (hs : Path.Spares [key] (k :: rest)) (hu : v.part? k = some u) :
    v'.part? k = some u := by
  have hne : k ≠ key := fun heq =>
    hs.outside (List.cons_prefix_cons.mpr ⟨heq.symm, List.nil_prefix⟩)
  have hv' := hv.drop? h
  rcases drop?_cases h with
    ⟨before, w, after, rfl, rfl, rfl⟩ | ⟨before, name, w, after, rfl, rfl, rfl⟩
  · -- An element before the dropped one stays in its place.
    cases k with
    | field other => cases hu
    | index j =>
      have hlt : j < before.length := hs.earlier [] before.length j rest rfl rfl
      have hget : (before ++ w :: after)[j]? = some u := hu
      show (before ++ after)[j]? = some u
      rw [List.getElem?_append_left hlt] at hget ⊢
      exact hget
  · cases k with
    | index j => cases hu
    | field other =>
      have hmem : (other, u) ∈ before ++ (name, w) :: after := Fields.mem_of_find? hu
      have hleft : (other, u) ∈ before ++ after := by
        rcases List.mem_append.mp hmem with hin | hin
        · exact List.mem_append_left _ hin
        · rcases List.mem_cons.mp hin with heq | hin
          · exact absurd (congrArg Key.field (Prod.mk.inj heq).1) hne
          · exact List.mem_append_right _ hin
      exact hv'.1.find?_of_mem hleft

/-- The parts under other keys than that of a part that is there stay as they were. -/
theorem part?_place?_of_ne {k : Key} (hu : v.part? key = some u)
    (h : v.place? key u' = some v') (hne : k ≠ key) : v'.part? k = v.part? k := by
  cases v with
  | scalar s => cases hu
  | array items =>
    obtain ⟨i, hi, hu⟩ := Option.bind_eq_some_iff.mp hu
    obtain ⟨hlt, -⟩ := List.getElem?_eq_some_iff.mp hu
    cases key with
    | field name => cases hi
    | index n =>
      obtain rfl : n = i := Option.some.inj hi
      obtain rfl := Option.some.inj h
      cases k with
      | field name => rfl
      | index j =>
        have hj : n ≠ j := fun heq => hne (congrArg Key.index heq.symm)
        show (placeItem n u' items)[j]? = items[j]?
        rw [placeItem, if_pos hlt, List.getElem?_set_ne hj]
  | object fields =>
    cases key with
    | index i => cases h
    | field name =>
      obtain rfl := Option.some.inj h
      cases k with
      | index j => rfl
      | field other =>
        have hname : other ≠ name := fun heq => hne (congrArg Key.field heq)
        exact Fields.find?_insert_of_ne hname u' fields

/-- A write at a path that leads somewhere changes nothing apart from the path.  The two paths go
into the same parts until they differ in a key, and then the part under the other key is the old
one. -/
theorem get?_write?_of_apart {path q : Path} (hu : v.get? path = some u)
    (h : v.write? path u' = some v') (hbelow : ¬ path <+: q) (habove : ¬ q <+: path) :
    v'.get? q = v.get? q := by
  induction path generalizing v v' q with
  | nil => exact absurd List.nil_prefix hbelow
  | cons key rest ih =>
    obtain ⟨c, hc, hleads⟩ := Option.bind_eq_some_iff.mp hu
    rw [write?_cons hc] at h
    obtain ⟨c', hc', hplace⟩ := Option.bind_eq_some_iff.mp h
    cases q with
    | nil => exact absurd List.nil_prefix habove
    | cons k q =>
      show (v'.part? k).bind (Value.get? q) = (v.part? k).bind (Value.get? q)
      by_cases hk : k = key
      · subst hk
        rw [part?_of_place? hplace, hc, Option.bind_some, Option.bind_some]
        exact ih hleads hc'
          (fun hp => hbelow (List.cons_prefix_cons.mpr ⟨rfl, hp⟩))
          fun hp => habove (List.cons_prefix_cons.mpr ⟨rfl, hp⟩)
      · rw [part?_place?_of_ne hc hplace hk]

/-- A removal leaves something at the paths that it spares: where the paths part, the other part is
not touched, and where the last part is dropped, it is not one that comes after it. -/
theorem isSome_get?_of_spares {p q : Path} (hv : v.Ordered) (h : v.remove? p = some v')
    (hs : Path.Spares p q) (hq : (v.get? q).isSome) : (v'.get? q).isSome := by
  induction p generalizing q v v' with
  | nil => cases h
  | cons key rest ih =>
    cases q with
    | nil => rfl
    | cons k q =>
      obtain ⟨x, hx⟩ := Option.isSome_iff_exists.mp hq
      obtain ⟨w, hw, hx⟩ := Option.bind_eq_some_iff.mp hx
      show ((v'.part? k).bind (Value.get? q)).isSome
      -- The last key of the path takes a part of this value; an earlier one changes a part of it.
      by_cases hrest : rest = []
      · subst hrest
        rw [part?_of_drop?_of_spares hv h hs hw, Option.bind_some, hx]
        rfl
      · obtain ⟨y, hy⟩ := Option.isSome_iff_exists.mp
          (isSome_remove?_iff.mp (Option.isSome_iff_exists.mpr ⟨v', h⟩)).2
        obtain ⟨u, hu, -⟩ := Option.bind_eq_some_iff.mp hy
        rw [remove?_cons hrest hu] at h
        obtain ⟨u', hu', hplace⟩ := Option.bind_eq_some_iff.mp h
        by_cases hk : k = key
        · subst hk
          obtain rfl : u = w := Option.some.inj (hu.symm.trans hw)
          rw [part?_of_place? hplace, Option.bind_some]
          exact ih (hv.part? hu) hu' hs.tail (Option.isSome_iff_exists.mpr ⟨x, hx⟩)
        · rw [part?_place?_of_ne hu hplace hk, hw, Option.bind_some, hx]
          rfl

/-- Takes out parts one after the other. -/
def removeEach? : List Path → Value → Option Value
  | [], v => some v
  | p :: rest, v => (v.remove? p).bind (removeEach? rest)

/-- Parts that are taken out one after the other are taken out at once, when each removal spares the
paths after it.  By induction on the paths: the first removal leaves the others where they are, so
they can be taken out at once from what it leaves, and then it is as if all were taken out of the
whole. -/
theorem removeEach?_eq_without {ps : List Path} (hv : v.Ordered) (hs : ps.Pairwise Path.Spares)
    (hres : ∀ p ∈ ps, p ≠ [] ∧ (v.get? p).isSome) :
    removeEach? ps v = some (v.without fun q => decide (q ∈ ps)) := by
  induction ps generalizing v with
  | nil =>
    have hnone : (fun q => decide (q ∈ ([] : List Path))) = fun _ => false :=
      funext fun q => decide_eq_false List.not_mem_nil
    rw [removeEach?, hnone, without_none]
  | cons p rest ih =>
    obtain ⟨hp, hrest⟩ := List.pairwise_cons.mp hs
    obtain ⟨v', hv'⟩ := Option.isSome_iff_exists.mp
      (isSome_remove?_iff.mpr (hres p List.mem_cons_self))
    have hleft := ih (hv.remove? hv') hrest fun q hq =>
      ⟨(hres q (List.mem_cons_of_mem p hq)).1, isSome_get?_of_spares hv hv' (hp q hq)
        (hres q (List.mem_cons_of_mem p hq)).2⟩
    have hor : orGone p (fun q => decide (q ∈ rest)) = fun q => decide (q ∈ p :: rest) :=
      funext fun q => by simp [orGone]
    rw [removeEach?, hv', Option.bind_some, hleft,
      without_of_remove? hv hv' fun q hq => hp q (of_decide_eq_true hq), hor]

/-! ## Objects with a marked field -/

/-- The value is an object with a marked field. -/
def holds (marked : String → Bool) : Value → Bool
  | object fields => fields.any fun entry => marked entry.1
  | _ => false

mutual

/-- The value without the fields and elements that are objects with a marked field. -/
def prune (marked : String → Bool) : Value → Value
  | scalar s => scalar s
  | array items => array (pruneItems marked items)
  | object fields => object (pruneFields marked fields)

/-- The elements that are no objects with a marked field, pruned themselves. -/
def pruneItems (marked : String → Bool) : List Value → List Value
  | [] => []
  | v :: rest =>
    if v.holds marked then pruneItems marked rest else v.prune marked :: pruneItems marked rest

/-- The fields whose values are no objects with a marked field, pruned themselves. -/
def pruneFields (marked : String → Bool) : List (String × Value) → List (String × Value)
  | [] => []
  | (name, v) :: rest =>
    if v.holds marked then pruneFields marked rest
    else (name, v.prune marked) :: pruneFields marked rest

end

variable {marked : String → Bool}

/-- A value holds a marked field when some marked name leads into it. -/
theorem holds_iff (hv : v.Ordered) :
    v.holds marked = true ↔ ∃ name, marked name = true ∧ (v.get? [.field name]).isSome := by
  have hget : ∀ name, v.get? [.field name] = v.part? (.field name) := fun name =>
    Option.bind_fun_some _
  cases v with
  | scalar s => simp [holds, hget, part?]
  | array items => simp [holds, hget, part?, Key.index?]
  | object fields =>
    rw [holds, List.any_eq_true]
    constructor
    · rintro ⟨entry, he, hm⟩
      refine ⟨entry.1, hm, ?_⟩
      have hfind : Fields.find? entry.1 fields = some entry.2 := hv.1.find?_of_mem he
      rw [hget]
      exact Option.isSome_iff_exists.mpr ⟨entry.2, hfind⟩
    · rintro ⟨name, hm, hs⟩
      rw [hget] at hs
      obtain ⟨w, hw⟩ := Option.isSome_iff_exists.mp hs
      exact ⟨(name, w), Fields.mem_of_find? hw, hm⟩

mutual

/-- To prune a value is to take out the parts at certain paths: those where an object with a marked
field is.  By induction on the value, where what is gone in a part is what is gone below its key. -/
theorem without_eq_prune : (v : Value) → v.Ordered → (gone : Path → Bool) →
    (∀ p w, p ≠ [] → v.get? p = some w → gone p = w.holds marked) →
    v.without gone = v.prune marked
  | scalar _, _, _, _ => rfl
  | array items, hv, gone, hgone => by
    rw [without, prune, withoutItems_eq_pruneItems items hv 0 gone]
    intro j w p x hj hx
    refine hgone (.index (0 + j) :: p) x (List.cons_ne_nil _ _) ?_
    show (items[0 + j]?).bind (Value.get? p) = some x
    rw [Nat.zero_add, hj, Option.bind_some, hx]
  | object fields, hv, gone, hgone => by
    rw [without, prune, withoutFields_eq_pruneFields fields hv.2 gone]
    intro entry he p x hx
    refine hgone (.field entry.1 :: p) x (List.cons_ne_nil _ _) ?_
    show (Fields.find? entry.1 fields).bind (Value.get? p) = some x
    rw [hv.1.find?_of_mem he, Option.bind_some, hx]

/-- The same for elements, counted from a position. -/
theorem withoutItems_eq_pruneItems : (items : List Value) → OrderedItems items → (i : Nat) →
    (gone : Path → Bool) →
    (∀ (j : Nat) (w : Value) (p : Path) (x : Value), items[j]? = some w → w.get? p = some x →
      gone (.index (i + j) :: p) = x.holds marked) →
    withoutItems gone i items = pruneItems marked items
  | [], _, _, _, _ => rfl
  | v :: rest, hv, i, gone, hgone => by
    have hown : gone [.index i] = v.holds marked := hgone 0 v [] v rfl rfl
    have hinner := without_eq_prune v hv.1 (fun p => gone (.index i :: p))
      fun p w _ hw => hgone 0 v p w rfl hw
    have hrest := withoutItems_eq_pruneItems rest hv.2 (i + 1) gone fun j w p x hj hx => by
      rw [Nat.add_right_comm]
      exact hgone (j + 1) w p x hj hx
    rw [withoutItems, pruneItems, hown, hinner, hrest]

/-- The same for fields. -/
theorem withoutFields_eq_pruneFields : (fields : List (String × Value)) → OrderedFields fields →
    (gone : Path → Bool) →
    (∀ entry ∈ fields, ∀ p x, entry.2.get? p = some x →
      gone (.field entry.1 :: p) = x.holds marked) →
    withoutFields gone fields = pruneFields marked fields
  | [], _, _, _ => rfl
  | (name, v) :: rest, hv, gone, hgone => by
    obtain ⟨hfirst, hmore⟩ := List.forall_mem_cons.mp hgone
    have hown : gone [.field name] = v.holds marked := hfirst [] v rfl
    have hinner := without_eq_prune v hv.1 (fun p => gone (.field name :: p))
      fun p w _ hw => hfirst p w hw
    have hrest := withoutFields_eq_pruneFields rest hv.2 gone hmore
    rw [withoutFields, pruneFields, hown, hinner, hrest]

end

/-- The paths of the objects with a marked field, once for each of these fields. -/
def wrappers (marked : String → Bool) (v : Value) : List Path :=
  (v.occurrences marked).map List.dropLast

/-- A path is that of a wrapper when the value there has a marked field. -/
theorem mem_wrappers_iff (hv : v.Ordered) (hu : v.get? path = some u) :
    path ∈ v.wrappers marked ↔ u.holds marked = true := by
  have hget : ∀ name, v.get? (path ++ [.field name]) = u.get? [.field name] := by
    intro name
    rw [get?_append, hu, Option.bind_some]
  rw [holds_iff (hv.get? hu), wrappers, List.mem_map]
  constructor
  · rintro ⟨p, hp, rfl⟩
    obtain ⟨before, name, rfl, hm, hs⟩ := (mem_occurrences_iff hv).mp hp
    rw [List.dropLast_concat] at hget
    exact ⟨name, hm, hget name ▸ hs⟩
  · rintro ⟨name, hm, hs⟩
    have hocc := (mem_occurrences_iff hv).mpr ⟨path, name, rfl, hm, hget name ▸ hs⟩
    exact ⟨path ++ [.field name], hocc, List.dropLast_concat⟩

/-- At the path of a wrapper there is an object. -/
theorem isSome_of_mem_wrappers (hv : v.Ordered) (hp : path ∈ v.wrappers marked) :
    (v.get? path).isSome := by
  obtain ⟨p, hocc, rfl⟩ := List.mem_map.mp hp
  obtain ⟨before, name, rfl, -, hs⟩ := (mem_occurrences_iff hv).mp hocc
  obtain ⟨x, hx⟩ := Option.isSome_iff_exists.mp hs
  rw [get?_append] at hx
  obtain ⟨w, hw, -⟩ := Option.bind_eq_some_iff.mp hx
  rw [List.dropLast_concat]
  exact Option.isSome_iff_exists.mpr ⟨w, hw⟩

/-- The wrappers, if the root is none of them, can be removed one after the other, when each removal
spares those after it.  In particular no path occurs twice, since a path does not spare itself: no
object has two marked fields. -/
theorem removeEach?_eq_prune {ps : List Path} (hv : v.Ordered) (hroot : v.holds marked = false)
    (hps : ps.Perm (v.wrappers marked)) (hs : ps.Pairwise Path.Spares) :
    removeEach? ps v = some (v.prune marked) := by
  have hresolve : ∀ p ∈ ps, p ≠ [] ∧ (v.get? p).isSome := by
    intro p hp
    have hwrapper := hps.mem_iff.mp hp
    refine ⟨?_, isSome_of_mem_wrappers hv hwrapper⟩
    rintro rfl
    exact Bool.false_ne_true (hroot.symm.trans ((mem_wrappers_iff hv rfl).mp hwrapper))
  rw [removeEach?_eq_without hv hs hresolve]
  refine congrArg some (without_eq_prune v hv _ fun p u _ hu => ?_)
  rw [Bool.eq_iff_iff, decide_eq_true_iff, hps.mem_iff]
  exact mem_wrappers_iff hv hu

end Value

end Expansion
