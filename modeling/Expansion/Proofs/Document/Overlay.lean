import Expansion.Proofs.Document.Mirror
import Expansion.Proofs.Value.Removal

/-!
  What an overlay does, and when it fails.

  A source that has something to add needs a target of its own kind; there it is merged, and nothing
  inside can fail, since every step of the merge finds what its own kind check has let through
  (`mirrors_overlay`).  A source with nothing to add changes nothing, wherever it goes.

  What a merge holds is told part by part (`Value.part?_merge`): the target wins, except that
  objects merge with objects and arrays with arrays.
-/

namespace Expansion

namespace Document

variable {doc doc' : Document} {path : Path} {source : Value}

/-- An overlay succeeds when there is nothing to add, or something of its kind to add to. -/
theorem Reachable.exists_overlay_iff (hr : doc.Reachable) (ho : source.Ordered) (path : Path) :
    (∃ doc', (overlay path source doc).value = (.ok (), doc')) ↔
      (∃ s, source = .scalar s) ∨ source = .array [] ∨ source = .object [] ∨
        ∃ target, doc.getValue path = .ok target ∧ target.kind.isContainer = true ∧
          target.kind = source.kind := by
  have h := hr.inShape
  have hmirrors := mirrors_overlay path ho
  cases hparts : source.hasParts with
  | false =>
    have hempty := Value.hasParts_eq_false_iff.mp hparts
    exact iff_of_true ⟨doc, overlay_of_not_hasParts hparts path doc⟩
      (hempty.imp_right fun hempty => hempty.imp_right Or.inl)
  | true =>
    constructor
    · rintro ⟨doc', hrun⟩
      obtain ⟨-, hvalue⟩ := hmirrors.of_ok h hrun
      obtain ⟨target, ht, hk, -⟩ := (Value.overlay?_eq_some_iff hparts).mp hvalue
      have hcontainer : target.kind.isContainer = true := hk ▸ Value.isContainer_of_hasParts hparts
      exact Or.inr (Or.inr (Or.inr ⟨target, h.getValue_eq_ok_iff.mpr ht, hcontainer, hk⟩))
    · -- With something to add, the first three cases are out, and the target is of the kind.
      intro hsource
      obtain ⟨target, ht, hk⟩ : ∃ target, doc.getValue path = .ok target ∧
          target.kind = source.kind := by
        rcases hsource with ⟨s, rfl⟩ | rfl | rfl | ⟨target, ht, -, hk⟩
        · cases hparts
        · cases hparts
        · cases hparts
        · exact ⟨target, ht, hk⟩
      have hget := h.getValue_eq_ok_iff.mp ht
      obtain ⟨v, hw⟩ :=
        Option.isSome_iff_exists.mp (Value.isSome_write?_of_get? hget (target.merge source))
      obtain ⟨⟨⟩, doc', hrun, -⟩ :=
        hmirrors.of_some h ((Value.overlay?_eq_some_iff hparts).mpr ⟨target, hget, hk, hw⟩)
      exact ⟨doc', hrun⟩

/-- An overlay with something to add merges it into the value at the path, and changes nothing
else. -/
theorem Reachable.merged_of_overlay (hr : doc.Reachable) (ho : source.Ordered)
    (hparts : source.hasParts = true)
    (hrun : (overlay path source doc).value = (.ok (), doc')) :
    ∃ target, doc.getValue path = .ok target ∧
      doc'.getValue path = .ok (target.merge source) ∧
      doc.toValue.write? path (target.merge source) = some doc'.toValue ∧
      ∀ q, ¬ path <+: q → ¬ q <+: path → doc'.toValue.get? q = doc.toValue.get? q := by
  have h := hr.inShape
  obtain ⟨h', hvalue⟩ := (mirrors_overlay path ho).of_ok h hrun
  obtain ⟨target, ht, -, hw⟩ := (Value.overlay?_eq_some_iff hparts).mp hvalue
  have hmerged : doc'.toValue.get? path = some (target.merge source) := by
    have hbelow := Value.get?_of_write? hw []
    rwa [List.append_nil] at hbelow
  exact ⟨target, h.getValue_eq_ok_iff.mpr ht, h'.getValue_eq_ok_iff.mpr hmerged, hw,
    fun q => Value.get?_write?_of_apart ht hw⟩

/-- An overlay succeeds if and only if the source is a scalar, or empty, or the path leads to a
value of its kind.  A scalar or empty source changes nothing.  Any other is merged into the value at
the path, and nothing else changes.  A merge keeps the target, unless both sides are objects or both
are arrays; these are merged part by part, and an array gets as long as the longer one. -/
theorem Reachable.overlay_exact (hr : doc.Reachable) (ho : source.Ordered) (path : Path) :
    ((∃ doc', (overlay path source doc).value = (.ok (), doc')) ↔
      (∃ s, source = .scalar s) ∨ source = .array [] ∨ source = .object [] ∨
        ∃ target, doc.getValue path = .ok target ∧ target.kind.isContainer = true ∧
          target.kind = source.kind) ∧
    (∀ doc', (overlay path source doc).value = (.ok (), doc') →
      (source.hasParts = false → doc' = doc) ∧
      (source.hasParts = true →
        ∃ target, doc.getValue path = .ok target ∧
          doc'.getValue path = .ok (target.merge source) ∧
          doc.toValue.write? path (target.merge source) = some doc'.toValue ∧
          ∀ q, ¬ path <+: q → ¬ q <+: path → doc'.toValue.get? q = doc.toValue.get? q)) ∧
    (∀ t s : Value, (t.kind.isContainer && t.kind == s.kind) = false → t.merge s = t) ∧
    (∀ t s : Value, s.Ordered → (t.kind.isContainer && t.kind == s.kind) = true →
      (t.merge s).kind = t.kind ∧
      ∀ key, (t.merge s).part? key = Value.mergePart (t.part? key) (s.part? key)) ∧
    ∀ items more, ∃ merged, (Value.array items).merge (.array more) = .array merged ∧
      merged.length = max items.length more.length := by
  refine ⟨hr.exists_overlay_iff ho path, fun doc' hrun => ⟨fun hparts => ?_, fun hparts =>
      hr.merged_of_overlay ho hparts hrun⟩,
    fun t s => Value.merge_of_not_alike,
    fun t s hs halike => ⟨Value.kind_merge t s, Value.part?_merge hs halike⟩,
    fun items more => ⟨_, by rw [Value.merge], Value.length_mergeItems items more⟩⟩
  -- What is left is the source without parts.
  rw [overlay_of_not_hasParts hparts] at hrun
  exact (Prod.mk.inj hrun).2.symm

/-- A field that is there, an array that grows, and a field that is new. -/
theorem Reachable.overlay_exact_of_object :
    let target : Value := .object [("x", .whole 1), ("y", .array [.whole 2])]
    let source : Value :=
      .object [("x", .null), ("y", .array [.whole 3, .whole 4]), ("z", .boolean true)]
    let doc := Document.ofValue (.object [("a", target), ("b", .null)])
    ∃ doc', (overlay [.field "a"] source doc).value = (.ok (), doc') ∧
      doc'.toValue = .object
        [("a", .object
          [("x", .whole 1), ("y", .array [.whole 2, .whole 4]), ("z", .boolean true)]),
         ("b", .null)] := by
  intro target source doc
  have hr : doc.Reachable := .ofValue (by
    simp only [target, Value.Ordered, Value.OrderedFields, Value.OrderedItems, Fields.Ordered]
    decide)
  have ho : source.Ordered := by
    simp only [source, Value.Ordered, Value.OrderedFields, Value.OrderedItems, Fields.Ordered]
    decide
  have htarget : doc.getValue [.field "a"] = .ok target :=
    hr.inShape.getValue_eq_ok_iff.mpr (by decide +kernel)
  have hmerged : doc.toValue.write? [.field "a"] (target.merge source) = some (.object
      [("a", .object
        [("x", .whole 1), ("y", .array [.whole 2, .whole 4]), ("z", .boolean true)]),
       ("b", .null)]) := by
    decide +kernel
  -- The target is an object, so the overlay succeeds and writes the merge.
  obtain ⟨hsucceeds, hvalue, -⟩ := Reachable.overlay_exact hr ho [.field "a"]
  obtain ⟨doc', hrun⟩ := hsucceeds.mpr (Or.inr (Or.inr (Or.inr ⟨target, htarget, rfl, rfl⟩)))
  obtain ⟨t, ht, -, hw, -⟩ := (hvalue doc' hrun).2 rfl
  obtain rfl : target = t := Except.ok.inj (htarget.symm.trans ht)
  exact ⟨doc', hrun, Option.some.inj (hw.symm.trans hmerged)⟩

end Document

end Expansion
