import Expansion.Proofs.Value.Removal

/-!
  Where the parts are found that a removal leaves.

  When parts are taken out all at once, a field keeps its name, and an element moves up by the
  number of elements before it that are gone (`leftBefore`).  So the path of a part that is left is
  followed key by key to its new one (`Path.among`).  There the part is found, with what is gone
  inside it taken out (`get?_without`, by induction on the path); nothing else is found anywhere
  (`exists_among_of_without`); and of two elements of one array the earlier one is still the earlier
  (`among_lt_among`).

  The two directions are proved alike, from rows over parts to paths: for elements by following the
  count along the row (`getElem?_withoutItems`, `exists_of_getElem?_withoutItems`), for fields by
  following the search for a name, then under one key (`part?_without`, `exists_of_part?_without`).
-/

namespace Expansion

/-- Of the positions from `i` on, the number of those that are left before the `n`-th. -/
def leftBefore (gone : Path → Bool) (i n : Nat) : Nat :=
  (List.range' i n).countP fun j => !gone [.index j]

/-- The key under which a part is found that is left. -/
def Key.among (gone : Path → Bool) : Key → Key
  | field name => field name
  | index i => index (leftBefore gone 0 i)

namespace Path

/-- The path at which a part is found that is left. -/
def among (gone : Path → Bool) : Path → Path
  | [] => []
  | key :: rest => key.among gone :: among (fun p => gone (key :: p)) rest

/-- Nothing on the way to the part is gone, nor is the part itself. -/
def Survives (gone : Path → Bool) (path : Path) : Prop :=
  ∀ p, p ≠ [] → p <+: path → gone p = false

variable {gone : Path → Bool} {key : Key} {path : Path}

/-- The whole is never gone. -/
theorem survives_nil : Survives gone [] := fun _ hp hpre => absurd (List.prefix_nil.mp hpre) hp

/-- A part inside survives when the part that it is in does, and it survives in that.  The paths to
it and to the parts that it is in all begin with its first key. -/
theorem survives_cons :
    Survives gone (key :: path) ↔
      gone [key] = false ∧ Survives (fun p => gone (key :: p)) path := by
  constructor
  · intro h
    refine ⟨h [key] (List.cons_ne_nil _ _) ?_, fun p _ hpre => ?_⟩
    · exact List.cons_prefix_cons.mpr ⟨rfl, List.nil_prefix⟩
    · exact h (key :: p) (List.cons_ne_nil _ _) (List.cons_prefix_cons.mpr ⟨rfl, hpre⟩)
  · rintro ⟨hkey, hrest⟩ p hp hpre
    cases p with
    | nil => exact absurd rfl hp
    | cons k p =>
      obtain ⟨rfl, hbelow⟩ := List.cons_prefix_cons.mp hpre
      by_cases hnil : p = []
      · exact hnil ▸ hkey
      · exact hrest p hnil hbelow

/-- The paths of the parts of one container are found under one path. -/
theorem among_concat (gone : Path → Bool) (path : Path) (key : Key) :
    among gone (path ++ [key])
      = among gone path ++ [key.among fun p => gone (path ++ p)] := by
  induction path generalizing gone with
  | nil => rfl
  | cons k rest ih => exact congrArg _ (ih fun p => gone (k :: p))

end Path

namespace Value

variable {gone : Path → Bool} {key : Key} {path : Path} {v u : Value}

/-! ## Positions -/

/-- An element that is gone is not counted. -/
theorem leftBefore_succ_of_gone {i : Nat} (h : gone [.index i] = true) (n : Nat) :
    leftBefore gone i (n + 1) = leftBefore gone (i + 1) n := by
  rw [leftBefore, List.range'_succ, List.countP_cons_of_neg (by simp [h]), leftBefore]

/-- An element that is left is counted. -/
theorem leftBefore_succ_of_left {i : Nat} (h : gone [.index i] = false) (n : Nat) :
    leftBefore gone i (n + 1) = leftBefore gone (i + 1) n + 1 := by
  rw [leftBefore, List.range'_succ, List.countP_cons_of_pos (by simp [h]), leftBefore]

/-- An element that is left is counted for those after it.  So the elements that are left keep their
order. -/
theorem leftBefore_lt {i j : Nat} (h : gone [.index i] = false) (hij : i < j) :
    leftBefore gone 0 i < leftBefore gone 0 j := by
  obtain ⟨n, rfl⟩ : ∃ n, j = i + (n + 1) := ⟨j - i - 1, by omega⟩
  have hsplit :
      leftBefore gone 0 (i + (n + 1)) = leftBefore gone 0 i + leftBefore gone i (n + 1) := by
    rw [leftBefore, ← List.range'_append_1, List.countP_append, Nat.zero_add]
    rfl
  rw [hsplit, leftBefore_succ_of_left h]
  omega

/-! ## Parts -/

/-- An element that is left is found after those before it that are, by induction on the row: where
an element is gone, both the row and the count pass over it. -/
theorem getElem?_withoutItems (items : List Value) {i n : Nat}
    (h : gone [.index (i + n)] = false) :
    (withoutItems gone i items)[leftBefore gone i n]?
      = items[n]?.map (·.without fun p => gone (.index (i + n) :: p)) := by
  induction items generalizing i n with
  | nil => rfl
  | cons v rest ih =>
    cases n with
    | zero => rw [withoutItems, if_neg (by simpa using h)]; rfl
    | succ n =>
      have hi : i + (n + 1) = i + 1 + n := by omega
      rw [hi] at h ⊢
      rw [withoutItems]
      cases hg : gone [.index i] with
      | true => rw [if_pos rfl, leftBefore_succ_of_gone hg, ih h]; rfl
      | false => rw [if_neg Bool.false_ne_true, leftBefore_succ_of_left hg]; exact ih h

/-- Every element that is found was there before, at a position that has as many left before it.
Again both the row and the count pass over what is gone. -/
theorem exists_of_getElem?_withoutItems {items : List Value} {i m : Nat}
    (h : (withoutItems gone i items)[m]? = some u) :
    ∃ n v, items[n]? = some v ∧ gone [.index (i + n)] = false ∧ leftBefore gone i n = m := by
  induction items generalizing i m with
  | nil => cases h
  | cons v rest ih =>
    -- What is found behind the first element, counted from the second.
    have hlater : ∀ m, (withoutItems gone (i + 1) rest)[m]? = some u → ∃ n v,
        (v :: rest)[n + 1]? = some v ∧ gone [.index (i + (n + 1))] = false ∧
          leftBefore gone (i + 1) n = m := by
      intro m hm
      obtain ⟨n, v, hn, hleft, hcount⟩ := ih hm
      have hi : i + 1 + n = i + (n + 1) := by omega
      exact ⟨n, v, hn, hi ▸ hleft, hcount⟩
    rw [withoutItems] at h
    cases hg : gone [.index i] with
    | true =>
      rw [hg, if_pos rfl] at h
      obtain ⟨n, v, hn, hleft, hcount⟩ := hlater m h
      exact ⟨n + 1, v, hn, hleft, leftBefore_succ_of_gone hg n ▸ hcount⟩
    | false =>
      rw [hg, if_neg Bool.false_ne_true] at h
      cases m with
      | zero => exact ⟨0, v, rfl, hg, rfl⟩
      | succ m =>
        obtain ⟨n, v, hn, hleft, hcount⟩ := hlater m h
        exact ⟨n + 1, v, hn, hleft, by rw [leftBefore_succ_of_left hg, hcount]⟩

/-- A field that is left is found under its name.  The fields do not move, so its name still leads
to it. -/
theorem find?_withoutFields (fields : Fields Value) {name : String}
    (h : gone [.field name] = false) :
    Fields.find? name (withoutFields gone fields)
      = (Fields.find? name fields).map (·.without fun p => gone (.field name :: p)) := by
  induction fields with
  | nil => rfl
  | cons entry rest ih =>
    obtain ⟨other, v⟩ := entry
    rw [withoutFields, Fields.find?]
    by_cases hname : other = name
    · subst hname
      rw [if_neg (by simpa using h), if_pos rfl, Fields.find?, if_pos rfl]
      rfl
    · rw [if_neg hname, ← ih]
      split
      · rfl
      · rw [Fields.find?, if_neg hname]

/-- A field that is found was there before. -/
theorem gone_of_find?_withoutFields {fields : Fields Value} {name : String}
    (h : Fields.find? name (withoutFields gone fields) = some u) : gone [.field name] = false := by
  induction fields with
  | nil => cases h
  | cons entry rest ih =>
    obtain ⟨other, v⟩ := entry
    rw [withoutFields] at h
    split at h
    · exact ih h
    · rename_i hleft
      rw [Fields.find?] at h
      split at h
      · rename_i hname
        exact hname ▸ Bool.eq_false_iff.mpr hleft
      · exact ih h

/-- A part that is left is found under its key, with what is gone inside it taken out. -/
theorem part?_without (v : Value) (h : gone [key] = false) :
    (v.without gone).part? (key.among gone)
      = (v.part? key).map (·.without fun p => gone (key :: p)) := by
  cases v with
  | scalar s => rfl
  | array items =>
    cases key with
    | field name => rfl
    | index i =>
      have hi : gone [.index (0 + i)] = false := (Nat.zero_add i).symm ▸ h
      have hget := getElem?_withoutItems items hi
      rw [Nat.zero_add] at hget
      exact hget
  | object fields =>
    cases key with
    | field name => exact find?_withoutFields fields h
    | index i => rfl

/-- Every part that is found was there before. -/
theorem exists_of_part?_without {k : Key} (h : (v.without gone).part? k = some u) :
    ∃ key w, v.part? key = some w ∧ gone [key] = false ∧ key.among gone = k := by
  cases v with
  | scalar s => cases h
  | array items =>
    cases k with
    | field name => cases h
    | index m =>
      have hm : (withoutItems gone 0 items)[m]? = some u := h
      obtain ⟨n, w, hn, hleft, hcount⟩ := exists_of_getElem?_withoutItems hm
      rw [Nat.zero_add] at hleft
      exact ⟨.index n, w, hn, hleft, congrArg Key.index hcount⟩
  | object fields =>
    cases k with
    | index m => cases h
    | field name =>
      have hname : Fields.find? name (withoutFields gone fields) = some u := h
      have hleft := gone_of_find?_withoutFields hname
      rw [find?_withoutFields fields hleft] at hname
      obtain ⟨w, hw, -⟩ := Option.map_eq_some_iff.mp hname
      exact ⟨.field name, w, hw, hleft, rfl⟩

/-! ## Paths -/

/-- A part that is left is found, with what is gone inside it taken out. -/
theorem get?_without (v : Value) (h : Path.Survives gone path) :
    (v.without gone).get? (path.among gone)
      = (v.get? path).map (·.without fun p => gone (path ++ p)) := by
  induction path generalizing v gone with
  | nil => rfl
  | cons key rest ih =>
    obtain ⟨hkey, hrest⟩ := Path.survives_cons.mp h
    show ((v.without gone).part? (key.among gone)).bind _ = ((v.part? key).bind _).map _
    rw [part?_without v hkey]
    cases v.part? key with
    | none => rfl
    | some w => exact ih w hrest

/-- Everything that is found was there before. -/
theorem exists_among_of_without (v : Value) (h : ((v.without gone).get? path).isSome) :
    ∃ q, Path.Survives gone q ∧ (v.get? q).isSome ∧ q.among gone = path := by
  induction path generalizing v gone with
  | nil => exact ⟨[], Path.survives_nil, rfl, rfl⟩
  | cons k rest ih =>
    obtain ⟨x, hx⟩ := Option.isSome_iff_exists.mp h
    obtain ⟨u, hu, hx⟩ := Option.bind_eq_some_iff.mp hx
    -- The first key comes from a key of the whole, and the rest is found in the part there.
    obtain ⟨key, w, hw, hkey, rfl⟩ := exists_of_part?_without hu
    rw [part?_without v hkey, hw] at hu
    obtain rfl := Option.some.inj hu
    obtain ⟨q, hq, hsome, rfl⟩ := ih w (Option.isSome_iff_exists.mpr ⟨x, hx⟩)
    refine ⟨key :: q, Path.survives_cons.mpr ⟨hkey, hq⟩, ?_, rfl⟩
    show ((v.part? key).bind (Value.get? q)).isSome
    rwa [hw]

end Value

/-- Of two elements of one array, the earlier one is found before the later one. -/
theorem Path.among_lt_among {gone : Path → Bool} {path : Path} {i j : Nat}
    (h : Survives gone (path ++ [.index i])) (hij : i < j) :
    ∃ before i' j', among gone (path ++ [.index i]) = before ++ [.index i'] ∧
      among gone (path ++ [.index j]) = before ++ [.index j'] ∧ i' < j' := by
  have hleft : gone (path ++ [.index i]) = false :=
    h _ (List.append_ne_nil_of_right_ne_nil _ (List.cons_ne_nil _ _)) (List.prefix_refl _)
  exact ⟨among gone path, _, _, among_concat gone path _, among_concat gone path _,
    Value.leftBefore_lt hleft hij⟩

end Expansion
