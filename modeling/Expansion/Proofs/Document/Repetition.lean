import Expansion.Proofs.Document.Growth
import Expansion.Proofs.Document.Overlay
import Expansion.Proofs.Value.Absorption

/-!
  Overlays only add, and add once.

  An overlay writes at keys that the document does not have, so no slot is emptied: every node in
  use keeps its place, and only containers get parts.  Afterwards the value at the path is the
  merge, which absorbs the source.  Where a value absorbs the source an overlay finds every key and
  writes nothing (`overlay_of_absorbs`), so a second overlay leaves the document as it is, slots
  included.
-/

namespace Expansion

namespace Document

variable {doc doc' : Document} {path : Path} {source target v : Value} {key : Key} {k : Nat}
  {s : Scalar}

/-! ## Where nothing is to be added -/

/-- Merging the source into the value at the path changes nothing. -/
def Absorbs (doc : Document) (path : Path) (source : Value) : Prop :=
  ∃ x, doc.toValue.get? path = some x ∧ x.merge source = x

/-- Where the source is absorbed by a value of its kind, its parts are absorbed under their keys. -/
theorem absorbs_part (ho : source.Ordered) (ht : doc.toValue.get? path = some target)
    (hk : target.kind = source.kind) (hm : target.merge source = target)
    (hv : source.part? key = some v) : doc.Absorbs (path ++ [key]) v := by
  obtain ⟨x, hx, hsame⟩ := Value.exists_part?_of_merge_eq ho hk hm hv
  refine ⟨x, ?_, hsame⟩
  rw [Value.get?_append, ht, Option.bind_some, Value.get?, hx]
  rfl

/-- An entry of the source that is absorbed is not written. -/
theorem overlayEntry_of_absorbs {merge : Edit DocumentError Unit} (hd : doc.InShape)
    (ha : doc.Absorbs path v)
    (hmerge : ∀ x, doc.toValue.get? path = some x → x.kind = v.kind → x.merge v = x →
      (merge doc).value = (.ok (), doc)) :
    (overlayEntry path v merge doc).value = (.ok (), doc) := by
  obtain ⟨x, hx, hsame⟩ := ha
  rw [value_overlayEntry, hd.existing_of_get? hx]
  simp only
  split
  · rename_i halike
    exact hmerge x hx (Value.alike_iff.mp halike).2 hsame
  · rfl

mutual

/-- An overlay of what a value of the kind of the source absorbs changes nothing. -/
theorem overlay_of_absorbs (hd : doc.InShape) : (source : Value) → source.Ordered → (path : Path) →
    {target : Value} → doc.toValue.get? path = some target → target.kind = source.kind →
    target.merge source = target → (overlay path source doc).value = (.ok (), doc)
  | .scalar _, _, _, _, _, _, _ => rfl
  | .array items, ho, path, target, ht, hk, hm =>
    overlayItems_of_absorbs hd items ho path 0 fun j v hj =>
      absorbs_part ho ht hk hm (show items[0 + j]? = some v by rwa [Nat.zero_add])
  | .object fields, ho, path, target, ht, hk, hm =>
    overlayFields_of_absorbs hd fields ho.2 path fun name v he =>
      absorbs_part ho ht hk hm (ho.1.find?_of_mem he)

/-- Elements that are absorbed, from position `i` on. -/
theorem overlayItems_of_absorbs (hd : doc.InShape) : (items : List Value) →
    Value.OrderedItems items → (path : Path) → (i : Nat) →
    (∀ j v, items[j]? = some v → doc.Absorbs (path ++ [.index (i + j)]) v) →
    (overlayItems path i items doc).value = (.ok (), doc)
  | [], _, _, _, _ => rfl
  | v :: rest, ho, path, i, ha => by
    have hfirst : doc.Absorbs (path ++ [.index i]) v := ha 0 v rfl
    have hentry := overlayEntry_of_absorbs hd hfirst fun x hx hk hm =>
      overlay_of_absorbs hd v ho.1 _ hx hk hm
    rw [overlayItems, Edit.value_bind_ok hentry]
    refine overlayItems_of_absorbs hd rest ho.2 path (i + 1) fun j w hj => ?_
    rw [Nat.add_assoc, Nat.add_comm 1 j]
    exact ha (j + 1) w hj

/-- Fields that are absorbed. -/
theorem overlayFields_of_absorbs (hd : doc.InShape) : (fields : List (String × Value)) →
    Value.OrderedFields fields → (path : Path) →
    (∀ name v, (name, v) ∈ fields → doc.Absorbs (path ++ [.field name]) v) →
    (overlayFields path fields doc).value = (.ok (), doc)
  | [], _, _, _ => rfl
  | (name, v) :: rest, ho, path, ha => by
    have hentry := overlayEntry_of_absorbs hd (ha name v List.mem_cons_self) fun x hx hk hm =>
      overlay_of_absorbs hd v ho.1 _ hx hk hm
    rw [overlayFields, Edit.value_bind_ok hentry]
    exact overlayFields_of_absorbs hd rest ho.2 path fun other w he =>
      ha other w (List.mem_cons_of_mem _ he)

end

/-! ## After an overlay -/

/-- A path resolves where the value of the document has a part. -/
theorem InShape.exists_get_iff (hd : doc.InShape) :
    (∃ k, doc.get path = .ok k) ↔ (doc.toValue.get? path).isSome := by
  obtain ⟨n, hn⟩ := hd
  rw [hn.toValue_eq, ← Node.value_at?, Option.isSome_map, Option.isSome_iff_exists]
  constructor
  · rintro ⟨k, hk⟩
    obtain ⟨c, hc, -⟩ := hn.exists_at?_of_get hk
    exact ⟨c, hc⟩
  · rintro ⟨c, hc⟩
    exact ⟨c.id, hn.get_of_at? hc⟩

/-- Some value is there, which the overlay has merged the source into. -/
theorem InShape.exists_merged_of_overlay (hd : doc.InShape) (ho : source.Ordered)
    (hparts : source.hasParts = true)
    (hrun : (overlay path source doc).value = (.ok (), doc')) :
    ∃ target, doc.toValue.get? path = some target ∧ target.kind = source.kind ∧
      doc'.toValue.get? path = some (target.merge source) := by
  obtain ⟨-, hvalue⟩ := (mirrors_overlay path ho).of_ok hd hrun
  obtain ⟨target, ht, hk, hw⟩ := (Value.overlay?_eq_some_iff hparts).mp hvalue
  have hmerged := Value.get?_of_write? hw []
  rw [List.append_nil] at hmerged
  exact ⟨target, ht, hk, hmerged⟩

/-- A second overlay of the same source changes nothing. -/
theorem InShape.overlay_again (hd : doc.InShape) (ho : source.Ordered)
    (hrun : (overlay path source doc).value = (.ok (), doc')) :
    (overlay path source doc').value = (.ok (), doc') := by
  cases hparts : source.hasParts with
  | false => exact overlay_of_not_hasParts hparts path doc'
  | true =>
    obtain ⟨target, ht, hk, hmerged⟩ := hd.exists_merged_of_overlay ho hparts hrun
    have hd' := ((mirrors_overlay path ho).of_ok hd hrun).1
    exact overlay_of_absorbs hd' source ho path hmerged ((Value.kind_merge ..).trans hk)
      (Value.merge_merge source ho (hd.ordered.get? ht))

/-- What the source has below its root is found after the overlay, unless the document had a value
of another kind above it. -/
theorem InShape.get_of_overlay_iff (hd : doc.InShape) (ho : source.Ordered)
    (hrun : (overlay path source doc).value = (.ok (), doc')) {q : Path} (hq : q ≠ [])
    (hs : (source.get? q).isSome) :
    (∃ k, doc'.get (path ++ q) = .ok k) ↔
      ¬ ∃ before t s, before <+: q ∧ before ≠ q ∧ doc.getValue (path ++ before) = .ok t ∧
        source.get? before = some s ∧ t.kind ≠ s.kind := by
  have hparts : source.hasParts = true := by
    cases hparts : source.hasParts with
    | true => rfl
    | false =>
      obtain ⟨key, rest, rfl⟩ := List.exists_cons_of_ne_nil hq
      rcases Value.hasParts_eq_false_iff.mp hparts with ⟨s, rfl⟩ | rfl | rfl
      · cases hs
      · cases key <;> cases hs
      · cases key <;> cases hs
  obtain ⟨target, ht, -, hmerged⟩ := hd.exists_merged_of_overlay ho hparts hrun
  have hd' := ((mirrors_overlay path ho).of_ok hd hrun).1
  have hfound : (∃ k, doc'.get (path ++ q) = .ok k) ↔
      ((target.merge source).get? q).isSome := by
    rw [hd'.exists_get_iff, Value.get?_append, hmerged]
    rfl
  -- What is below the path is what the target has there, so the question is one about a merge.
  have hbelow : ∀ before t, doc.getValue (path ++ before) = .ok t ↔
      target.get? before = some t := by
    intro before t
    rw [hd.getValue_eq_ok_iff, Value.get?_append, ht]
    rfl
  rw [hfound, Value.isSome_get?_merge_iff ho hs]
  simp only [hbelow]
  constructor
  · rintro hadmits ⟨before, t, s, hpre, hne, ht, hs, hk⟩
    exact hk (hadmits before t s hpre hne ht hs)
  · intro hnone before t s hpre hne ht hs
    exact Decidable.byContradiction fun hk => hnone ⟨before, t, s, hpre, hne, ht, hs, hk⟩

/-- A node without parts is what its slot holds. -/
theorem InShape.value_eq_scalar_iff (hd : doc.InShape) :
    doc.value k = .ok (.scalar s) ↔ ∃ p, doc.slot? k = some ⟨p, .scalar s⟩ := by
  obtain ⟨n, hn⟩ := hd
  cases hslot : doc.slot? k with
  | none => simp [value_of_stale hslot]
  | some slot =>
    obtain ⟨path, c, hc, rfl⟩ := hn.exists_at?_of_slot? hslot
    obtain ⟨p, hp⟩ := hn.holds.at? hc
    obtain rfl : ⟨p, c.content⟩ = slot := Option.some.inj (hp.slot.symm.trans hslot)
    rw [value, hn.node_of_at? hc]
    cases c <;> simp [Except.map, Node.value, Node.content]

/-- An overlay gives parts to containers only. -/
theorem Grown.scalar (hg : Grown doc doc' (doc.Receives path source)) (hd : doc.InShape)
    (hd' : doc'.InShape) (hv : doc.value k = .ok (.scalar s)) : doc'.value k = .ok (.scalar s) := by
  obtain ⟨p, hslot⟩ := hd.value_eq_scalar_iff.mp hv
  obtain ⟨content, hslot', -, hsame⟩ := hg.slot k _ hslot
  have hnot : ¬ doc.Receives path source k := by
    rintro ⟨rest, key, part, v, -, hv, -, hkind, -⟩
    have hcontainer := Value.isContainer_of_part? hv
    rw [Document.kind, Document.slot, hslot] at hkind
    rw [← Except.ok.inj hkind] at hcontainer
    cases s <;> cases hcontainer
  rw [hsame hnot] at hslot'
  exact hd'.value_eq_scalar_iff.mpr ⟨p, hslot'⟩

/-- After an overlay every node is where it was, in its container and of its kind, scalars keep
their values, and no slot is empty that was not empty before.  What the source has below its root is
found below the path, unless the document already had a value of another kind at a proper prefix.
The same overlay again changes nothing. -/
theorem Reachable.overlay_grows_once (hr : doc.Reachable) (ho : source.Ordered)
    (hrun : (overlay path source doc).value = (.ok (), doc')) :
    (∀ k, (doc.slot? k).isSome → (doc'.slot? k).isSome ∧
      (∃ p, doc.pathOf k = .ok p ∧ doc'.pathOf k = .ok p ∧ doc'.get p = .ok k) ∧
      doc'.parent k = doc.parent k ∧ doc'.kind k = doc.kind k) ∧
    (∀ k s, doc.value k = .ok (.scalar s) → doc'.value k = .ok (.scalar s)) ∧
    (∀ k, doc'.Stale k → doc.Stale k) ∧
    (∀ q, q ≠ [] → (source.get? q).isSome →
      ((∃ k, doc'.get (path ++ q) = .ok k) ↔
        ¬ ∃ before t s, before <+: q ∧ before ≠ q ∧ doc.getValue (path ++ before) = .ok t ∧
          source.get? before = some s ∧ t.kind ≠ s.kind)) ∧
    (overlay path source doc').value = (.ok (), doc') := by
  have hd := hr.inShape
  have hd' := ((mirrors_overlay path ho).of_ok hd hrun).1
  have hg := grown_overlay source ho path hd
  rw [hrun] at hg
  -- All but the last two are the growth of the document.
  refine ⟨fun k hk => ?_, fun k s hv => hg.scalar hd hd' hv, hg.stale,
    fun q hq hs => hd.get_of_overlay_iff ho hrun hq hs, hd.overlay_again ho hrun⟩
  obtain ⟨s, hs⟩ := Option.isSome_iff_exists.mp hk
  obtain ⟨content, hs', -⟩ := hg.slot k s hs
  obtain ⟨p, hp⟩ := hd.exists_get hk
  have hparent : doc.parent k = .ok s.parent := parent_eq_ok_iff.mpr ⟨s.content, hs⟩
  exact ⟨by rw [hs']; rfl,
    ⟨p, hd.pathOf_of_get hp, hd'.pathOf_of_get (hg.get hp), hg.get hp⟩,
    (hg.parent hparent).trans hparent.symm, hg.kind hk⟩

/-- A text stays where the source has an object, so what is in that object is not found; an element
beyond the end of an array is. -/
theorem Reachable.overlay_grows_once_of_clash :
    let doc := Document.ofValue
      (.object [("a", .object [("x", .string "s"), ("y", .array [.null])])])
    let source : Value :=
      .object [("x", .object [("k", .null)]), ("y", .array [.boolean true, .boolean false])]
    doc.Reachable ∧ source.Ordered ∧ ∃ doc',
      (overlay [.field "a"] source doc).value = (.ok (), doc') ∧
      doc'.value 2 = .ok (.string "s") ∧
      (¬ ∃ k, doc'.get [.field "a", .field "x", .field "k"] = .ok k) ∧
      (∃ k, doc'.get [.field "a", .field "y", .index 1] = .ok k) ∧
      (overlay [.field "a"] source doc').value = (.ok (), doc') := by
  intro doc source
  have hr : doc.Reachable := .ofValue (by
    simp only [Value.Ordered, Value.OrderedFields, Value.OrderedItems, Fields.Ordered]
    decide)
  have ho : source.Ordered := by
    simp only [source, Value.Ordered, Value.OrderedFields, Value.OrderedItems, Fields.Ordered]
    decide
  have htext : doc.value 2 = .ok (.string "s") :=
    hr.inShape.value_eq_scalar_iff.mpr ⟨some 1, by decide +kernel⟩
  have hfound : doc.getValue [.field "a", .field "x"] = .ok (.string "s") :=
    hr.inShape.getValue_eq_ok_iff.mpr (by decide +kernel)
  have hlist : doc.getValue [.field "a", .field "y"] = .ok (.array [.null]) :=
    hr.inShape.getValue_eq_ok_iff.mpr (by decide +kernel)
  have htarget : doc.getValue [.field "a"]
      = .ok (.object [("x", .string "s"), ("y", .array [.null])]) :=
    hr.inShape.getValue_eq_ok_iff.mpr (by decide +kernel)
  clear_value doc
  obtain ⟨doc', hrun⟩ := (hr.exists_overlay_iff ho [.field "a"]).mpr
    (Or.inr (Or.inr (Or.inr ⟨_, htarget, rfl, rfl⟩)))
  obtain ⟨-, hscalar, -, hbelow, hagain⟩ := hr.overlay_grows_once ho hrun
  refine ⟨hr, ho, doc', hrun, hscalar 2 _ htext, fun hk => ?_, ?_, hagain⟩
  · -- The text stands above the field.
    exact (hbelow [.field "x", .field "k"] (List.cons_ne_nil _ _) rfl).mp hk
      ⟨[.field "x"], _, _, ⟨[.field "k"], rfl⟩, by decide, hfound, rfl, by decide⟩
  · refine (hbelow [.field "y", .index 1] (List.cons_ne_nil _ _) rfl).mpr ?_
    rintro ⟨before, t, s, hpre, hne, ht, hs, hk⟩
    -- On the way to the element, only the target and its array are passed.
    rcases List.prefix_cons_iff.mp hpre with rfl | ⟨_, rfl, hrest⟩
    · obtain rfl := Except.ok.inj (htarget.symm.trans ht)
      obtain rfl := Option.some.inj hs
      exact hk rfl
    rcases List.prefix_cons_iff.mp hrest with rfl | ⟨_, rfl, hlast⟩
    · obtain rfl := Except.ok.inj (hlist.symm.trans ht)
      obtain rfl : Value.array [.boolean true, .boolean false] = s := Option.some.inj hs
      exact hk rfl
    · exact hne (by rw [List.prefix_nil.mp hlast])

end Document

end Expansion
