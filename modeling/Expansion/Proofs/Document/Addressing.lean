import Expansion.Proofs.Document.Growth

/-!
  Handles and paths lead to the same nodes.

  Climbing from a handle in use gives the path that leads back to it, and no other path leads there.
  A write finds its place by its own case analysis of the container and the key, but what it
  overwrites is what a step down leads to (`place_of_step`), so a change by path is the change of
  the handle that the path leads to, down to the journal (`set_of_get`, `delete_of_get`).
-/

namespace Expansion

namespace Document

variable {doc doc' : Document} {before path : Path} {key : Key} {c k : Nat} {x : Value}

/-! ## Changes at a path that resolves -/

/-- A change that can be carried out gives its answer and its document, and notes nothing. -/
theorem change_of_ok {ε α : Type} {f : Document → Except ε (α × Document)} {a : α}
    (h : f doc = .ok (a, doc')) : change f doc = pure (.ok a, doc') := by
  rw [change, h]

/-- A change that cannot be carried out gives the error and the old document. -/
theorem change_of_error {ε α : Type} {f : Document → Except ε (α × Document)} {e : ε}
    (h : f doc = .error e) : change f doc = pure (.error e, doc) := by
  rw [change, h]

/-- A write overwrites what a step leads to.  The container and the key are looked at as the step
looks at them, and what it finds is what is overwritten. -/
theorem place_of_step (h : doc.step before key c = .ok k) :
    doc.place before key c = .ok (.overwrite k) := by
  obtain ⟨⟨p, content⟩, hs, hpart⟩ := step_eq_ok_iff.mp h
  have hslot : doc.slot c = .ok ⟨p, content⟩ := by rw [slot, hs]
  simp only [place, hslot, bind, Except.bind]
  cases content with
  | scalar s => cases hpart
  | array items =>
    cases key with
    | field name => cases hpart
    | index i =>
      have hi : items[i]? = some k := hpart
      simp only [hi]
      rfl
  | object fields =>
    cases key with
    | index i => cases hpart
    | field name =>
      have hname : Fields.find? name fields = some k := hpart
      simp only [hname]
      rfl

/-- Where a path leads is what a write there overwrites.  At the root this is so by definition;
below it, it is the last step of the path that counts. -/
theorem exists_placeAt_of_get (hg : doc.get path = .ok k) :
    ∃ c, doc.placeAt path = .ok (c, .overwrite k) := by
  rcases List.eq_nil_or_concat path with rfl | ⟨before, key, rfl⟩
  · obtain rfl : doc.top = k := Except.ok.inj hg
    exact ⟨doc.top, rfl⟩
  · rw [List.concat_eq_append] at hg ⊢
    rw [get_concat] at hg
    cases hc : doc.get before with
    | error e =>
      rw [hc] at hg
      cases hg
    | ok c =>
      rw [hc] at hg
      refine ⟨c, ?_⟩
      simp only [placeAt, List.getLast?_concat, List.dropLast_concat, hc, bind, Except.bind,
        place_of_step hg]
      rfl

/-- Writing at a path that resolves is overwriting the node there; nothing is noted.  There is no
padding to note, since the path leads to an element that is there. -/
theorem set_of_get (hg : doc.get path = .ok k) (x : Value) :
    set path x doc = change (fun d => (d.overwrite k x).map fun d' => (k, d')) doc := by
  obtain ⟨c, hp⟩ := exists_placeAt_of_get hg
  have hpadding : doc.padding path = 0 := by
    rw [padding, hp]
  have hwrite : doc.write path x = (doc.overwrite k x).map fun d' => (k, d') := by
    simp only [write, hp, bind, Except.bind, writeAt]
  show ((do
    if 0 < doc.padding path then
      Edit.note .trace "Extending array with null gaps"
        [("path", path.text), ("padding", toString (doc.padding path))]
    change fun d => d.write path x) : Edit DocumentError Nat) doc = _
  rw [hpadding, if_neg (Nat.lt_irrefl 0)]
  show change (fun d => d.write path x) doc = _
  rw [change, change, hwrite]

/-- Removing at a path that resolves, below the root, is removing the node there. -/
theorem delete_of_get (hne : path ≠ []) (hg : doc.get path = .ok k) :
    delete path doc = deleteNode k doc := by
  have hempty : path.isEmpty = false := by simpa using hne
  rw [delete, deleteNode, change, change, remove, hempty, if_neg Bool.false_ne_true, hg]
  rfl

/-! ## The root and the other nodes -/

/-- The root is not removed. -/
theorem InShape.removeNode_top (hd : doc.InShape) :
    doc.removeNode doc.top = .error .rootDelete := by
  obtain ⟨n, hn⟩ := hd
  have hslot := slot_of_holds hn.holds
  rw [hn.top] at hslot
  simp only [Document.removeNode, hslot, bind, Except.bind]
  rfl

/-- Every node but the root can be removed. -/
theorem InShape.exists_removeNode (hd : doc.InShape) (hk : (doc.slot? k).isSome)
    (hne : k ≠ doc.top) :
    ∃ v doc', doc.value k = .ok v ∧ doc.removeNode k = .ok (v, doc') := by
  obtain ⟨n, hn⟩ := hd
  obtain ⟨s, hs⟩ := Option.isSome_iff_exists.mp hk
  obtain ⟨path, c, hc, rfl⟩ := hn.exists_at?_of_slot? hs
  rcases hn.root_or_part hc with ⟨-, rfl⟩ | ⟨before, key, above, -, habove, hkey, -⟩
  · exact absurd hn.top hne
  · obtain ⟨doc', hr, -⟩ := hn.removeNode habove hkey
    exact ⟨c.value, doc', congrArg (Except.map Node.value) (hn.node_of_at? hc), hr⟩

/-- A path leads to a handle exactly when climbing from the handle, which is in use, gives the path.
Changing the node by its handle and changing it by its path are the same: an overwrite succeeds and
leaves the same document, and so does a removal, which answers the value; only the root cannot be
removed, and is refused in both forms. -/
theorem Reachable.handles_and_paths_agree (hr : doc.Reachable) :
    (∀ path k, doc.get path = .ok k → doc.pathOf k = .ok path) ∧
    ∀ k, (doc.slot? k).isSome → ∃ path, doc.pathOf k = .ok path ∧ doc.get path = .ok k ∧
      (∀ x : Value, x.Ordered → ∃ doc',
        setNode k x doc = pure (.ok (), doc') ∧ set path x doc = pure (.ok k, doc')) ∧
      deleteNode k doc = delete path doc ∧
      (k = doc.top → delete path doc = pure (.error .rootDelete, doc)) ∧
      (k ≠ doc.top → ∃ v doc', doc.value k = .ok v ∧ delete path doc = pure (.ok v, doc')) := by
  have hd := hr.inShape
  refine ⟨fun path k hg => hd.pathOf_of_get hg, fun k hk => ?_⟩
  obtain ⟨path, hg⟩ := hd.exists_get hk
  -- The root is at the empty path, and at no other.
  have hroot : k = doc.top → path = [] := fun htop => by
    have htop' : doc.get [] = .ok k := congrArg Except.ok htop.symm
    exact Except.ok.inj ((hd.pathOf_of_get hg).symm.trans (hd.pathOf_of_get htop'))
  have hdelete : deleteNode k doc = delete path doc := by
    by_cases hp : path = []
    · subst hp
      obtain rfl : doc.top = k := Except.ok.inj hg
      exact change_of_error hd.removeNode_top
    · exact (delete_of_get hp hg).symm
  refine ⟨path, hd.pathOf_of_get hg, hg, fun x hx => ?_, hdelete, fun htop => ?_, fun hne => ?_⟩
  · obtain ⟨doc', ho⟩ := hd.exists_overwrite hx hk
    refine ⟨doc', change_of_ok (by rw [ho]; rfl), ?_⟩
    rw [set_of_get hg]
    exact change_of_ok (by rw [ho]; rfl)
  · rw [hroot htop]
    rfl
  · obtain ⟨v, doc', hv, hremove⟩ := hd.exists_removeNode hk hne
    exact ⟨v, doc', hv, hdelete ▸ change_of_ok hremove⟩

/-- An element that has moved up, since the one before it was removed, is found and removed where it
is now. -/
theorem Reachable.handles_and_paths_agree_of_shift :
    let before := Document.ofValue (.object [("a", .array [.null, .string "x"])])
    let path : Path := [.field "a", .index 0]
    let doc := (delete path before).value.2
    doc.Reachable ∧ ∃ k doc', doc.pathOf k = .ok path ∧ doc.value k = .ok (.string "x") ∧
      deleteNode k doc = pure (.ok (.string "x"), doc') ∧
      delete path doc = pure (.ok (.string "x"), doc') := by
  intro before path doc
  have hbefore : before.Reachable :=
    .ofValue ⟨List.pairwise_singleton _ _, ⟨trivial, trivial, trivial⟩, trivial⟩
  obtain ⟨removed, doc', hrun, hd, hvalue⟩ := (mirrors_delete path).of_some hbefore.inShape
    (show before.toValue.remove? path = some (.object [("a", .array [.string "x"])]) by
      decide +kernel)
  have hdoc : doc = doc' := congrArg Prod.snd hrun
  have hr : doc.Reachable := by
    have hchange := hbefore.change (c := .delete path) trivial
    rw [Change.apply, Edit.value_bind, hrun] at hchange
    exact hdoc ▸ hchange
  -- From here on only what the document holds matters, not how it was made.
  clear_value doc
  subst hdoc
  have hfound : doc.getValue path = .ok (.string "x") :=
    hd.getValue_eq_ok_iff.mpr (by rw [hvalue]; decide +kernel)
  obtain ⟨hpaths, hhandles⟩ := hr.handles_and_paths_agree
  cases hget : doc.get path with
  | error e =>
    rw [getValue, hget] at hfound
    cases hfound
  | ok k =>
    have hk : doc.value k = .ok (.string "x") := by rwa [getValue, hget] at hfound
    have hpath := hpaths _ k hget
    obtain ⟨path', hpath', -, -, hsame, -, hremove⟩ :=
      hhandles k (hr.inShape.isSome_slot?_of_get hget)
    obtain rfl := Except.ok.inj (hpath.symm.trans hpath')
    -- It is not the root, which has another path.
    have hne : k ≠ doc.top := fun htop => by
      have hroot := hpaths [] doc.top rfl
      rw [← htop, hpath] at hroot
      exact List.cons_ne_nil _ _ (Except.ok.inj hroot)
    obtain ⟨v, doc', hv, hdelete⟩ := hremove hne
    obtain rfl := Except.ok.inj (hk.symm.trans hv)
    exact ⟨hr, k, doc', hpath, hk, hsame.trans hdelete, hdelete⟩

end Document

end Expansion
