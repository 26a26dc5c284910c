import Expansion.Proofs.Document.Slots
import Expansion.Proofs.Value.Path

/-!
  The shape of a document.

  `Shape doc n` says that the slots of the document hold the tree `n` from the root down, each slot
  in one place, and nothing else.  This is the invariant of documents: every single change keeps it,
  and changes the tree as the same change does to a value (`Shape.overwrite`, `Shape.newField`,
  `Shape.newItem`, `Shape.removeNode`).  All four are cases of `Shape.updateAt`: the slots under one
  node of the tree are exchanged and the others stay as they are.

  For values, a change at one node is a write of the changed part there (`Node.write?_updateAt`), so
  the value of the changed tree is known with the tree.
-/

namespace Expansion

/-- The slots of a document hold a tree and nothing else. -/
structure Shape (doc : Document) (n : Node) : Prop where
  top : n.id = doc.top
  holds : doc.Holds none n
  nodup : n.handles.Nodup
  covers : ∀ h, (doc.slot? h).isSome → h ∈ n.handles
  live : doc.live = n.handles.length
  ordered : n.value.Ordered

namespace Node

/-- Placing a part where there is one is changing that part. -/
theorem place?_updatePart {key : Key} {n c : Node} {f : Node → Node} (hn : n.value.Ordered)
    (hc : n.part? key = some c) :
    n.value.place? key (f c).value = some (n.updatePart key f).value := by
  cases n with
  | scalar id s => simp [part?] at hc
  | array id items =>
    cases key with
    | field name => simp [part?, Key.index?] at hc
    | index i =>
      obtain ⟨hlt, hi⟩ := List.getElem?_eq_some_iff.mp hc
      have hm : items.modify i f = items.set i (f c) := by
        rw [List.modify_eq_take_cons_drop hlt, List.set_eq_take_append_cons_drop, if_pos hlt, hi]
      simp [value, Value.place?, Key.index?, updatePart, valueItems_eq_map, Value.placeItem, hlt,
        hm, List.map_set]
  | object id fields =>
    cases key with
    | index i => simp [part?, Key.name?] at hc
    | field name =>
      obtain ⟨before, after, rfl, hne⟩ := Fields.split_of_find? hc
      have ho := hn.1
      simp only [valueFields_eq_map, List.map_append, List.map_cons] at ho
      simp [value, Value.place?, Key.name?, updatePart, valueFields_eq_map,
        Fields.modify_append_cons hne, Fields.insert_append_cons ho]

/-- Changing a tree at a path is writing the changed part there. -/
theorem write?_updateAt {path : Path} {n c : Node} {f : Node → Node} (hn : n.value.Ordered)
    (hc : n.at? path = some c) :
    n.value.write? path (f c).value = some (n.updateAt f path).value := by
  induction path generalizing n with
  | nil =>
    obtain rfl : n = c := Option.some.inj hc
    rfl
  | cons key rest ih =>
    obtain ⟨k, hk, hc⟩ := Option.bind_eq_some_iff.mp hc
    have hkv : n.value.part? key = some k.value := by rw [← value_part?, hk]; rfl
    rw [Value.write?_cons hkv, ih (hn.part? hkv) hc]
    exact place?_updatePart hn hk

end Node

namespace Document.Holds

variable {doc doc' : Document} {parent : Option Nat} {n c : Node} {f : Node → Node}

/-- When the slots of one node in a tree are exchanged, the tree with that node exchanged is
held.  The node keeps its handle, so the slots above it hold what they held. -/
theorem updateAt {path : Path} (h : Holds doc parent n) (hc : n.at? path = some c)
    (hd : n.handles.Nodup) (hid : (f c).id = c.id)
    (hkept : ∀ k ∈ n.handles, k ∉ c.handles → doc'.slot? k = doc.slot? k)
    (hheld : ∀ p, Holds doc p c → Holds doc' p (f c)) :
    Holds doc' parent (n.updateAt f path) := by
  induction path generalizing n parent with
  | nil =>
    obtain rfl : n = c := Option.some.inj hc
    exact hheld parent h
  | cons key rest ih =>
    obtain ⟨k, hk, hc⟩ := Option.bind_eq_some_iff.mp hc
    obtain ⟨before, after, hkids, hu⟩ := Node.updatePart_of_part? hk
    obtain ⟨hid', hkids', hcontent⟩ := hu (Node.updateAt f rest)
    -- The part on the path keeps its handle, so the slot of the node need not change.
    have hkid : (k.updateAt f rest).id = k.id := Node.id_updateAt hc hid
    have hsub : c.handles ⊆ k.handles := Node.handles_subset_of_at? hc
    have hmem : ∀ d ∈ n.kids, ∀ j ∈ d.handles, j ∈ n.handles := fun d hd =>
      Node.handles_subset_of_mem_kids hd
    have hk' : k ∈ n.kids := Node.mem_kids_of_part? hk
    rw [Node.handles_eq, hkids, List.flatMap_append, List.flatMap_cons] at hd
    obtain ⟨hnot, hd⟩ := List.nodup_cons.mp hd
    obtain ⟨-, hkr, hbefore⟩ := List.nodup_append.mp hd
    obtain ⟨hkd, -, hafter⟩ := List.nodup_append.mp hkr
    show Holds doc' parent (n.updatePart key (Node.updateAt f rest))
    refine .intro ?_ (hid' ▸ h.after) fun d hd => ?_
    · rw [hid', hcontent hkid, hkept n.id n.id_mem_handles, h.slot]
      intro hin
      exact hnot (List.mem_append.mpr (Or.inr (List.mem_append.mpr (Or.inl (hsub hin)))))
    · rw [hid']
      rw [hkids'] at hd
      -- The node on the path is exchanged below; those before and after it share no handle with it.
      have hother : d ∈ n.kids → (∀ j ∈ d.handles, j ∉ k.handles) → Holds doc' (some n.id) d := by
        intro hd hdisj
        exact (h.kids d hd).congr fun j hj =>
          hkept j (hmem d hd j hj) fun hin => hdisj j hj (hsub hin)
      rcases List.mem_append.mp hd with hd | hd
      · refine hother (hkids ▸ List.mem_append_left _ hd) fun j hj hjk => ?_
        exact hbefore j (List.mem_flatMap.mpr ⟨d, hd, hj⟩) j (List.mem_append_left _ hjk) rfl
      · rcases List.mem_cons.mp hd with rfl | hd
        · exact ih (h.kids k hk') hc hkd fun j hj => hkept j (hmem k hk' j hj)
        · refine hother (hkids ▸ List.mem_append_right _ (List.mem_cons_of_mem _ hd))
            fun j hj hjk => ?_
          exact hafter j hjk j (List.mem_flatMap.mpr ⟨d, hd, hj⟩) rfl

end Document.Holds

namespace Shape

variable {doc doc' : Document} {n c : Node} {path : Path}

/-- The tree is what is read from the root. -/
theorem node (h : Shape doc n) : doc.node doc.top = .ok n := by
  rw [← h.top]
  exact Document.node_of_holds h.holds

/-- The tree of the document is the one that its slots hold. -/
theorem root_eq (h : Shape doc n) : doc.root = n := by
  simp [Document.root, h.node]

/-- The value of the document is that of the tree. -/
theorem toValue_eq (h : Shape doc n) : doc.toValue = n.value := by
  rw [Document.toValue, h.root_eq]

/-- The handles of the tree are among those that were issued. -/
theorem lt_size (h : Shape doc n) {k : Nat} (hk : k ∈ n.handles) : k < doc.slots.size := by
  obtain ⟨slot, hs⟩ := Option.isSome_iff_exists.mp (h.holds.isSome_of_mem hk)
  exact Document.lt_size_of_slot? hs

/-- The slots of one node are exchanged for those of another tree under the same handle.  What the
change has to keep is local: the slots outside the node, and the count of slots. -/
theorem updateAt {f : Node → Node} (h : Shape doc n) (hc : n.at? path = some c)
    (hid : (f c).id = c.id) (htop : doc'.top = doc.top)
    (hkept : ∀ k ∈ n.handles, k ∉ c.handles → doc'.slot? k = doc.slot? k)
    (hheld : ∀ p, doc.Holds p c → doc'.Holds p (f c)) (hnodup : (f c).handles.Nodup)
    (hfresh : ∀ k ∈ (f c).handles, k ∈ c.handles ∨ k ∉ n.handles)
    (hcovers : ∀ k, (doc'.slot? k).isSome →
      k ∈ (f c).handles ∨ (doc.slot? k).isSome ∧ k ∉ c.handles)
    (hlive : doc'.live + c.handles.length = doc.live + (f c).handles.length)
    (hordered : (f c).value.Ordered) : Shape doc' (n.updateAt f path) := by
  obtain ⟨before, after, hb, ha⟩ := Node.handles_updateAt hc
  have hd : (before ++ c.handles ++ after).Nodup := hb ▸ h.nodup
  obtain ⟨hbc, hna, hdisj⟩ := List.nodup_append.mp hd
  obtain ⟨hnb, hnc, hdisj'⟩ := List.nodup_append.mp hbc
  -- Handles before and after the run of the node are outside it.
  have hout : ∀ k, k ∈ before ∨ k ∈ after → k ∉ c.handles ∧ k ∈ n.handles := by
    intro k hk
    rw [hb]
    rcases hk with hk | hk
    · exact ⟨fun hin => hdisj' k hk k hin rfl, by simp [hk]⟩
    · exact ⟨fun hin => hdisj k (List.mem_append_right _ hin) k hk rfl, by simp [hk]⟩
  -- The new tree has none of them either.
  have hnew : ∀ k, k ∈ before ∨ k ∈ after → k ∉ (f c).handles := by
    intro k hk hin
    rcases hfresh k hin with hin | hin
    · exact (hout k hk).1 hin
    · exact hin (hout k hk).2
  refine ⟨?_, h.holds.updateAt hc h.nodup hid hkept hheld, ?_, fun k hk => ?_, ?_, ?_⟩
  · rw [Node.id_updateAt hc hid, h.top, htop]
  · rw [ha f]
    refine List.nodup_append.mpr ⟨List.nodup_append.mpr ⟨hnb, hnodup, ?_⟩, hna, ?_⟩
    · rintro k hk j hj rfl
      exact hnew k (Or.inl hk) hj
    · rintro k hk j hj rfl
      rcases List.mem_append.mp hk with hk | hk
      · exact hdisj k (List.mem_append_left _ hk) k hj rfl
      · exact hnew k (Or.inr hj) hk
  · rw [ha f]
    rcases hcovers k hk with hk | ⟨hs, hk⟩
    · simp [hk]
    · have hin := h.covers k hs
      rw [hb] at hin
      rcases List.mem_append.mp hin with hin | hin
      · rcases List.mem_append.mp hin with hin | hin
        · simp [hin]
        · exact absurd hin hk
      · simp [hin]
  · rw [ha f]
    have hlen := congrArg List.length hb
    rw [← h.live] at hlen
    simp only [List.length_append] at hlen ⊢
    omega
  · exact h.ordered.write? hordered (Node.write?_updateAt h.ordered hc)

end Shape

end Expansion
