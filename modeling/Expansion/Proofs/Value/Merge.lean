import Expansion.Proofs.Value.Path

/-!
  Merging one value into another.

  `merge target source` is the target with what only the source has: a key that both have keeps the
  target's value, unless both values are objects, or both arrays, which merge in turn.  So a merge
  is known part by part: under each key there is the part of the one side that has it, or the merge
  of both (`part?_merge`).  The recursion files the fields of the source one at a time, and what is
  found in the end does not depend on that (`find?_mergeFields`).

  `overlay?` merges into the part of a value at a path.  A source without parts has nothing to add,
  wherever it goes; any other needs a part of its own kind to merge into.  A merge is one write at
  the path, and a second write at a path undoes the first (`write?_write?`): this is what makes the
  writes of single keys add up to a merge.
-/

namespace Expansion

namespace Fields

variable {α : Type}

/-- An entry that is there already is not changed by inserting it. -/
theorem Ordered.insert_of_find? {fields : Fields α} (h : Ordered fields) {name : String} {a : α}
    (ha : find? name fields = some a) : Fields.insert name a fields = fields := by
  obtain ⟨before, after, rfl, -⟩ := split_of_find? ha
  exact insert_append_cons h a

/-- The last insertion under a name counts.  The first one has made the place in which the second
one puts its value. -/
theorem insert_insert (name : String) (a b : α) (fields : Fields α) :
    insert name b (insert name a fields) = insert name b fields := by
  induction fields with
  | nil => simp [insert]
  | cons entry rest ih =>
    obtain ⟨key, c⟩ := entry
    by_cases hkey : key = name
    · simp [insert, hkey]
    · by_cases hlt : name < key
      · simp [insert, hkey, hlt]
      · simp [insert, hkey, hlt, ih]

end Fields

namespace Value

/-! ## Writing what is there, and writing again -/

/-- Placing a part where it is changes nothing.  An object has to be in order for this, since a
field is placed where its name belongs. -/
theorem place?_self {key : Key} {v c : Value} (ho : v.Ordered) (hc : v.part? key = some c) :
    v.place? key c = some v := by
  cases v with
  | scalar s => simp [part?] at hc
  | array items =>
    obtain ⟨i, hi, hc⟩ := Option.bind_eq_some_iff.mp hc
    obtain ⟨hlt, rfl⟩ := List.getElem?_eq_some_iff.mp hc
    simp [place?, hi, placeItem, hlt]
  | object fields =>
    obtain ⟨name, hname, hc⟩ := Option.bind_eq_some_iff.mp hc
    simp [place?, hname, ho.1.insert_of_find? hc]

/-- Writing what is there changes nothing.  What is read on the way down is placed again on the way
up. -/
theorem write?_self {path : Path} {v c : Value} (ho : v.Ordered) (hc : v.get? path = some c) :
    v.write? path c = some v := by
  induction path generalizing v with
  | nil =>
    obtain rfl : v = c := Option.some.inj hc
    rfl
  | cons key rest ih =>
    obtain ⟨u, hu, hc⟩ := Option.bind_eq_some_iff.mp hc
    have hinner : u.write? rest c = some u := ih (ho.part? hu) hc
    rw [write?_cons hu, hinner, Option.bind_some]
    exact place?_self ho hu

/-- The last of two elements placed at one position counts; the nulls before it are those of the
first. -/
theorem placeItem_placeItem (i : Nat) (a b : Value) (items : List Value) :
    placeItem i b (placeItem i a items) = placeItem i b items := by
  by_cases hlt : i < items.length
  · simp [placeItem, hlt]
  · have hle : items.length ≤ i := Nat.le_of_not_lt hlt
    have hlength : (items ++ List.replicate (i - items.length) null).length = i := by
      rw [List.length_append, List.length_replicate]
      omega
    -- Placed beyond the end, the first element is the last one, and the second takes its place.
    have hplaced : placeItem i a items
        = (items ++ List.replicate (i - items.length) null) ++ [a] := by
      rw [placeItem, if_neg hlt]
    have hin : i < ((items ++ List.replicate (i - items.length) null) ++ [a]).length := by
      rw [List.length_append, hlength, List.length_singleton]
      omega
    rw [hplaced, placeItem, if_pos hin, placeItem, if_neg hlt,
      List.set_append_right i b (Nat.le_of_eq hlength), hlength, Nat.sub_self]
    rfl

/-- The last of two parts placed under one key counts. -/
theorem place?_place? {key : Key} {v v' a : Value} (h : v.place? key a = some v') (b : Value) :
    v'.place? key b = v.place? key b := by
  cases v with
  | scalar s => simp [place?] at h
  | array items =>
    obtain ⟨i, hi, rfl⟩ := Option.map_eq_some_iff.mp h
    simp [place?, hi, placeItem_placeItem]
  | object fields =>
    obtain ⟨name, hname, rfl⟩ := Option.map_eq_some_iff.mp h
    simp [place?, hname, Fields.insert_insert]

/-- A write at a path where another one was before is as if it were the only one: on the way down
both go into the same parts, by induction on the path. -/
theorem write?_write? {path : Path} {v v' a : Value} (h : v.write? path a = some v') (b : Value) :
    v'.write? path b = v.write? path b := by
  induction path generalizing v v' with
  | nil => rfl
  | cons key rest ih =>
    by_cases hr : rest = []
    · subst hr
      exact place?_place? h b
    · obtain ⟨u, u', hu, hw, hp⟩ := part?_of_write?_cons hr h
      have hu' : v'.part? key = some u' := part?_of_place? hp
      rw [write?_cons hu, write?_cons hu', ih hw]
      cases u.write? rest b with
      | none => rfl
      | some w => exact place?_place? hp w

/-- A write under a key of what is found at a path is a write at that path. -/
theorem write?_concat_of_get? {path : Path} {v c c' w : Value} {key : Key}
    (hc : v.get? path = some c) (hp : c.place? key w = some c') :
    v.write? (path ++ [key]) w = v.write? path c' := by
  rw [write?_concat, hc, Option.bind_some, hp, Option.bind_some]

/-! ## Merging -/

mutual

/-- The target with what only the source has. -/
def merge : (target source : Value) → Value
  | object fields, object more => object (mergeFields fields more)
  | array items, array more => array (mergeItems items more)
  | target, _ => target

/-- Elements at the same position merge, and further ones are added. -/
def mergeItems : (items more : List Value) → List Value
  | items, [] => items
  | [], v :: rest => v :: rest
  | item :: items, v :: rest => item.merge v :: mergeItems items rest

/-- Fields of the same name merge, and further ones are added. -/
def mergeFields : (fields more : Fields Value) → Fields Value
  | fields, [] => fields
  | fields, (name, v) :: rest =>
    mergeFields
      (Fields.insert name
        (match Fields.find? name fields with
        | some x => x.merge v
        | none => v)
        fields)
      rest

end

/-- The value has parts. -/
def hasParts : Value → Bool
  | scalar _ => false
  | array items => !items.isEmpty
  | object fields => !fields.isEmpty

/-- Merges a source into the part at a path, which must be of its kind if it has anything to
add. -/
def overlay? (path : Path) (source v : Value) : Option Value :=
  if source.hasParts then
    (v.get? path).bind fun target =>
      if target.kind = source.kind then v.write? path (target.merge source) else none
  else some v

/-- A merge is of the kind of its target. -/
theorem kind_merge (target source : Value) : (target.merge source).kind = target.kind := by
  cases target <;> cases source <;> simp [merge, kind]

/-- Values that are not both objects or both arrays do not merge. -/
theorem merge_of_not_alike {target source : Value}
    (h : (target.kind.isContainer && target.kind == source.kind) = false) :
    target.merge source = target := by
  cases target with
  | scalar s => simp [merge]
  | array items =>
    cases source with
    | array more => simp [kind, Kind.isContainer] at h
    | scalar s => simp [merge]
    | object more => simp [merge]
  | object fields =>
    cases source with
    | object more => simp [kind, Kind.isContainer] at h
    | scalar s => simp [merge]
    | array more => simp [merge]

mutual

/-- A merge of values in order is in order, by induction on both. -/
theorem Ordered.merge : {target : Value} → target.Ordered → {source : Value} → source.Ordered →
    (target.merge source).Ordered
  | .object _, ht, .object _, hs => by
    rw [Value.merge]
    exact Ordered.mergeFields ht hs.2
  | .array _, ht, .array _, hs => by
    rw [Value.merge]
    exact Ordered.mergeItems ht hs
  | .scalar _, _, _, _ => by simp [Value.merge, Value.Ordered]
  | .object _, ht, .scalar _, _ => by simpa [Value.merge] using ht
  | .object _, ht, .array _, _ => by simpa [Value.merge] using ht
  | .array _, ht, .scalar _, _ => by simpa [Value.merge] using ht
  | .array _, ht, .object _, _ => by simpa [Value.merge] using ht

/-- Elements are merged in order. -/
theorem Ordered.mergeItems : {items : List Value} → OrderedItems items → {more : List Value} →
    OrderedItems more → OrderedItems (mergeItems items more)
  | _, hi, [], _ => by rwa [Value.mergeItems]
  | [], _, _ :: _, hm => by rwa [Value.mergeItems]
  | _ :: _, hi, _ :: _, hm => by
    rw [Value.mergeItems]
    exact ⟨hi.1.merge hm.1, Ordered.mergeItems hi.2 hm.2⟩

/-- Fields are merged in order: each field of the source is placed in the object, settled with the
one that is there. -/
theorem Ordered.mergeFields : {fields : Fields Value} → (object fields).Ordered →
    {more : List (String × Value)} → OrderedFields more → (object (mergeFields fields more)).Ordered
  | _, hf, [], _ => by rwa [Value.mergeFields]
  | fields, hf, (name, v) :: rest, hm => by
    rw [Value.mergeFields]
    refine Ordered.mergeFields ?_ hm.2
    have hsettled : (match Fields.find? name fields with
        | some x => x.merge v
        | none => v).Ordered := by
      split
      · rename_i x hx
        have hpart : (object fields).part? (.field name) = some x := hx
        exact (hf.part? hpart).merge hm.1
      · exact hm.1
    exact hf.place? hsettled (show (object fields).place? (.field name) _ = _ from rfl)

end

/-! ## What a merge holds -/

/-- A part of a merge, by those of its two sides: the merge of both, or the one that is there. -/
def mergePart : Option Value → Option Value → Option Value
  | some x, some y => some (x.merge y)
  | some x, none => some x
  | none, found => found

/-- Under a name there is what both sides have under it, merged.  The induction is on the fields of
the source, which are in order, so that none is filed twice. -/
theorem find?_mergeFields {more : Fields Value} (h : Fields.Ordered more) (fields : Fields Value)
    (name : String) :
    Fields.find? name (mergeFields fields more)
      = mergePart (Fields.find? name fields) (Fields.find? name more) := by
  induction more generalizing fields with
  | nil =>
    rw [mergeFields, Fields.find?_nil]
    cases Fields.find? name fields <;> rfl
  | cons entry rest ih =>
    obtain ⟨other, v⟩ := entry
    obtain ⟨hlt, hrest⟩ := List.pairwise_cons.mp h
    rw [mergeFields, ih hrest]
    by_cases hname : other = name
    · -- No later entry has the same name.
      subst hname
      have hnone : Fields.find? other rest = none := by
        cases hf : Fields.find? other rest with
        | none => rfl
        | some w => exact absurd (hlt _ (Fields.mem_of_find? hf)) (String.lt_irrefl other)
      rw [Fields.find?_insert_self, hnone, Fields.find?, if_pos rfl]
      cases Fields.find? other fields <;> rfl
    · rw [Fields.find?_insert_of_ne (Ne.symm hname), Fields.find?, if_neg hname]

/-- At a position there is what both sides have there, merged.  The rows are gone through side by
side, and what is left of the longer one is kept. -/
theorem getElem?_mergeItems (items more : List Value) (i : Nat) :
    (mergeItems items more)[i]? = mergePart items[i]? more[i]? := by
  induction more generalizing items i with
  | nil =>
    rw [mergeItems, List.getElem?_nil]
    cases items[i]? <;> rfl
  | cons v rest ih =>
    cases items with
    | nil =>
      rw [mergeItems, List.getElem?_nil]
      rfl
    | cons item items =>
      rw [mergeItems]
      cases i with
      | zero => rfl
      | succ i => exact ih items i

/-- No element is lost, and none is made up: there are as many as in the longer of the two. -/
theorem length_mergeItems (items more : List Value) :
    (mergeItems items more).length = max items.length more.length := by
  induction more generalizing items with
  | nil => rw [mergeItems, List.length_nil, Nat.max_zero]
  | cons v rest ih =>
    cases items with
    | nil => rw [mergeItems, List.length_nil, Nat.zero_max]
    | cons item items =>
      rw [mergeItems, List.length_cons, List.length_cons, List.length_cons, ih,
        Nat.add_max_add_right]

/-- Two objects, or two arrays, are merged part by part. -/
theorem part?_merge {target source : Value} (ho : source.Ordered)
    (h : (target.kind.isContainer && target.kind == source.kind) = true) (key : Key) :
    (target.merge source).part? key = mergePart (target.part? key) (source.part? key) := by
  cases target with
  | scalar s => cases s <;> cases h
  | array items =>
    cases source with
    | scalar s => cases s <;> cases h
    | object more => cases h
    | array more =>
      rw [merge]
      cases key with
      | field name => rfl
      | index i => exact getElem?_mergeItems items more i
  | object fields =>
    cases source with
    | scalar s => cases s <;> cases h
    | array more => cases h
    | object more =>
      rw [merge]
      cases key with
      | index i => rfl
      | field name => exact find?_mergeFields ho.1 fields name

/-! ## Overlays -/

/-- Scalars and empty containers have nothing to add. -/
theorem hasParts_eq_false_iff {v : Value} :
    v.hasParts = false ↔ (∃ s, v = .scalar s) ∨ v = .array [] ∨ v = .object [] := by
  cases v with
  | scalar s => simp [hasParts]
  | array items => simp [hasParts]
  | object fields => simp [hasParts]

/-- Only containers have parts. -/
theorem isContainer_of_hasParts {v : Value} (h : v.hasParts = true) :
    v.kind.isContainer = true := by
  cases v with
  | scalar s => cases h
  | array items => rfl
  | object fields => rfl

/-- A source with something to add is merged into a target of its kind.  The write at the path
succeeds wherever the target is found, so the kind is all that can stand in the way. -/
theorem overlay?_eq_some_iff {path : Path} {source v v' : Value} (h : source.hasParts = true) :
    overlay? path source v = some v' ↔
      ∃ target, v.get? path = some target ∧ target.kind = source.kind ∧
        v.write? path (target.merge source) = some v' := by
  rw [overlay?, if_pos h, Option.bind_eq_some_iff]
  refine exists_congr fun target => and_congr_right fun _ => ?_
  by_cases hk : target.kind = source.kind
  · rw [if_pos hk, and_iff_right hk]
  · simp [hk]

/-- An overlay at the root merges, unless it fails. -/
theorem overlay?_root (source v : Value) :
    overlay? [] source v = none ∨ overlay? [] source v = some (v.merge source) := by
  cases hparts : source.hasParts with
  | true =>
    rw [overlay?, if_pos hparts, get?_nil, Option.bind_some]
    split
    · exact Or.inr rfl
    · exact Or.inl rfl
  | false =>
    right
    rw [overlay?, hparts, if_neg Bool.false_ne_true]
    -- Nothing to add: the merge is the target, too.
    rcases hasParts_eq_false_iff.mp hparts with ⟨s, rfl⟩ | rfl | rfl
    · cases v <;> simp [merge]
    · cases v <;> simp [merge, mergeItems]
    · cases v <;> simp [merge, mergeFields]

end Value

end Expansion
