import Expansion.Proofs.Macro.Deletion
import Expansion.Proofs.Macro.Schedule
import Expansion.Proofs.Value.Survivors

/-!
  Deletions that wait for their turn act at once.

  The paths are those of the document before the first deletion.  The modifiers run deepest first
  and later elements first, so that no deletion takes away or moves what a later one is to delete
  (`pairwise_spares`).  What is left is therefore the value without the parts at the paths, each
  where `Path.among` says (`deletions_at_once`).
-/

namespace Expansion.Pending

variable {doc : Document} {ms : List Modifier}

/-- In the order of execution each path spares those after it. -/
theorem pairwise_spares {pending : Pending} (hf : pending.Filed) (ho : pending.Ordered) :
    (pending.inOrder.map Modifier.path).Pairwise Path.Spares := by
  have hdiffer : (pending.inOrder.map Modifier.path).Nodup :=
    (pending.perm_inOrder.map Modifier.path).nodup_iff.mpr (hf.nodup_paths ho)
  rw [List.Nodup, List.pairwise_map] at hdiffer
  rw [List.pairwise_map]
  refine (pending.pairwise_inOrder.and hdiffer).imp fun ⟨hbefore, hne⟩ => ?_
  exact Modifier.spares_of_runsBefore (List.append_nil _).symm (List.append_nil _).symm rfl
    hbefore hne

/-- Modifiers at different paths below the root, each of which deletes what is at its path, take out
all these parts as they were before, whatever the order in which they were registered: the deletions
are as many as the modifiers, and what is left is the value without the parts.  A part that is left,
with all that it is in, is found at its path among what is left, without what is gone inside it;
nothing else is found; and of two elements of one array the earlier one stays the earlier. -/
theorem deletions_at_once (hr : doc.Reachable)
    (hdelete : ∀ m ∈ ms, m.instructions = [.delete m.path])
    (hdistinct : (ms.map Modifier.path).Nodup)
    (hresolve : ∀ p ∈ ms.map Modifier.path, p ≠ [] ∧ (doc.toValue.get? p).isSome) :
    let gone (p : Path) : Bool := decide (p ∈ ms.map Modifier.path)
    ∃ doc', ((insertAll ms {}).value.applyAll doc).value = (.ok ms.length, doc') ∧
      doc'.toValue = doc.toValue.without gone ∧
      (∀ q, Path.Survives gone q → doc'.toValue.get? (q.among gone)
        = (doc.toValue.get? q).map (·.without fun p => gone (q ++ p))) ∧
      (∀ path, (doc'.toValue.get? path).isSome →
        ∃ q, Path.Survives gone q ∧ (doc.toValue.get? q).isSome ∧ q.among gone = path) ∧
      ∀ path i j, Path.Survives gone (path ++ [.index i]) → i < j → ∃ before i' j',
        Path.among gone (path ++ [.index i]) = before ++ [.index i'] ∧
        Path.among gone (path ++ [.index j]) = before ++ [.index j'] ∧ i' < j' := by
  intro gone
  have h := hr.inShape
  -- The paths differ, so no modifier takes the place of another and all of them are pending.
  have hperm := perm_all_insertAll hdistinct
  have hpaths := ((perm_inOrder _).trans hperm).map Modifier.path
  have hdeletes : ∀ m ∈ (insertAll ms {}).value.all, m.instructions = [.delete m.path] :=
    fun m hm => hdelete m (hperm.mem_iff.mp hm)
  have hordered : ∀ m ∈ (insertAll ms {}).value.all, m.Ordered := by
    intro m hm
    rw [Modifier.Ordered, hdeletes m hm]
    exact List.forall_mem_singleton.mpr trivial
  have hsame : (fun q => decide (q ∈ (insertAll ms {}).value.inOrder.map Modifier.path)) = gone :=
    funext fun q => decide_eq_decide.mpr hpaths.mem_iff
  -- One after the other in their order, they take the parts out of the value.
  have heffect : Modifier.effectEach? (insertAll ms {}).value.inOrder doc.toValue
      = some (doc.toValue.without gone) := by
    rw [Modifier.effectEach?_eq_removeEach? fun m hm => hdeletes m (mem_inOrder.mp hm),
      Value.removeEach?_eq_without h.ordered
        (pairwise_spares (filed_insertAll_empty ms) (ordered_insertAll_empty ms))
        fun p hp => hresolve p (hpaths.mem_iff.mp hp), hsame]
  obtain ⟨doc', hrun, -, hvalue⟩ := exists_applyAll_of_effect h hordered heffect
  have hlen : (insertAll ms {}).value.len = ms.length := by
    rw [← length_inOrder, ← List.length_map Modifier.path, hpaths.length_eq, List.length_map]
  refine ⟨doc', hlen ▸ hrun, hvalue, fun q hq => ?_, fun path hpath => ?_,
    fun path i j hi hij => Path.among_lt_among hi hij⟩
  · rw [hvalue]
    exact Value.get?_without _ hq
  · rw [hvalue] at hpath
    exact Value.exists_among_of_without _ hpath

/-- Elements of one array, an object and a part of it, and an array and an element of it. -/
theorem deletions_at_once_nested :
    let doc := Document.ofValue (.object
      [("l", .array [.whole 0, .object [("a", .whole 1), ("b", .whole 2)], .whole 3,
        .array [.whole 4, .whole 5], .whole 6]),
       ("m", .object [("a", .null), ("b", .null)])])
    let paths : List Path :=
      [[.field "l", .index 0], [.field "l", .index 1, .field "a"], [.field "m", .field "b"],
       [.field "l", .index 1], [.field "l", .index 3, .index 0], [.field "l", .index 2]]
    let ms := paths.map fun p => ⟨p, "M", [.delete p]⟩
    ∃ doc', ((insertAll ms {}).value.applyAll doc).value = (.ok 6, doc') ∧
      doc'.toValue = .object [("l", .array [.array [.whole 5], .whole 6]),
        ("m", .object [("a", .null)])] := by
  intro doc paths ms
  have hr : doc.Reachable := .ofValue (by
    simp only [Value.Ordered, Value.OrderedFields, Value.OrderedItems, Fields.Ordered]
    decide)
  have hpaths : ms.map Modifier.path = paths := by rfl
  have hdelete : ∀ m ∈ ms, m.instructions = [.delete m.path] :=
    List.forall_mem_map.mpr fun _ _ => rfl
  -- What the general statement asks of the paths, and what it says is left, can be computed.
  have hdistinct : (ms.map Modifier.path).Nodup := by
    rw [hpaths]
    decide +kernel
  have hresolve : ∀ p ∈ ms.map Modifier.path, p ≠ [] ∧ (doc.toValue.get? p).isSome := by
    rw [hpaths]
    decide +kernel
  have hleft : doc.toValue.without (fun p => decide (p ∈ ms.map Modifier.path))
      = .object [("l", .array [.array [.whole 5], .whole 6]), ("m", .object [("a", .null)])] := by
    rw [hpaths]
    decide +kernel
  obtain ⟨doc', hrun, hvalue, -⟩ := deletions_at_once hr hdelete hdistinct hresolve
  exact ⟨doc', hrun, hvalue.trans hleft⟩

end Expansion.Pending
