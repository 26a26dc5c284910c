import Expansion.Proofs.Document.Shape

/-!
  Single changes of documents in shape.

  A new document has the shape of its labelled value.  Overwriting, adding parts and removing a part
  keep the shape, and each changes the tree at one node.  The statements give the new tree; its
  value is what the change makes of the value.

  What overwriting and removing do to the slots under that node is said first, of the document alone
  (`Document.refill`, `Document.without`): the operations go on step by step and can fail on the
  way, and on a node that is held they come down to these.  Adding a field and adding elements are
  both `Shape.grow`: trees in newly issued slots are put into the row of parts, wherever in the row.
-/

namespace Expansion

namespace Node

/-- What the handles of a labelled tree are, one by one. -/
theorem mem_handles_label {id next k : Nat} {v : Value} :
    k ∈ (label id next v).handles ↔ k = id ∨ next ≤ k ∧ k < next + (v.size - 1) := by
  rw [handles_label, List.mem_cons, List.mem_range'_1]

/-- A labelled tree has no handle twice. -/
theorem nodup_handles_label {id next : Nat} (h : id < next) (v : Value) :
    (label id next v).handles.Nodup := by
  rw [handles_label]
  refine List.nodup_cons.mpr ⟨?_, List.nodup_range'⟩
  rw [List.mem_range'_1]
  omega

/-- A labelled tree has as many handles as the value takes slots. -/
theorem length_handles_label (id next : Nat) (v : Value) :
    (label id next v).handles.length = v.size := by
  have := one_le_size v
  rw [handles_label, List.length_cons, List.length_range']
  omega

end Node

namespace Document

variable {doc : Document} {c : Node} {p : Option Nat}

/-! ## The slots of a node that is filled again -/

/-- The document with a node filled with another value: the slots below the node are emptied, and
the new parts are built in the slots after the last. -/
def refill (doc : Document) (c : Node) (v : Value) : Document :=
  let (content, built) := build c.id v (doc.vacateAll (c.kids.flatMap Node.handles))
  built.update c.id fun _ => content

/-- Only the slot of the node itself is filled again. -/
theorem slot?_refill_of_ne (doc : Document) (c : Node) (v : Value) {k : Nat} (hk : k ≠ c.id) :
    (doc.refill c v).slot? k =
      (build c.id v (doc.vacateAll (c.kids.flatMap Node.handles))).2.slot? k := by
  rw [refill, slot?_update, if_neg (Ne.symm hk)]

/-- What is issued for the new parts comes after the last slot. -/
theorem issued_refill (hp : Holds doc p c) (v : Value) :
    Issued (doc.vacateAll (c.kids.flatMap Node.handles))
      (build c.id v (doc.vacateAll (c.kids.flatMap Node.handles))).2 (v.size - 1) := by
  have hlt : c.id < (doc.vacateAll (c.kids.flatMap Node.handles)).slots.size := by
    rw [size_vacateAll]
    exact lt_size_of_slot? hp.slot
  exact (build_spec c.id v _ hlt).2.1

/-- Of the slots from before, those below the node are empty, and those outside it hold what they
held. -/
theorem slot?_refill_of_lt (hp : Holds doc p c) (v : Value) {k : Nat} (hk : k ≠ c.id)
    (hlt : k < doc.slots.size) :
    (doc.refill c v).slot? k = if k ∈ c.handles then none else doc.slot? k := by
  have hmem : k ∈ c.kids.flatMap Node.handles ↔ k ∈ c.handles := by
    rw [Node.handles_eq, List.mem_cons]
    exact ⟨Or.inr, fun hin => hin.resolve_left hk⟩
  rw [slot?_refill_of_ne doc c v hk, (issued_refill hp v).old k (by rwa [size_vacateAll]),
    slot?_vacateAll]
  simp only [hmem]

/-- The node itself stays in use until it is filled. -/
theorem slot?_build (hp : Holds doc p c) (hd : c.handles.Nodup) (v : Value) :
    (build c.id v (doc.vacateAll (c.kids.flatMap Node.handles))).2.slot? c.id
      = some ⟨p, c.content⟩ := by
  have hlt := lt_size_of_slot? hp.slot
  have hnot : c.id ∉ c.kids.flatMap Node.handles := fun hin => by
    obtain ⟨k, hk, hin⟩ := List.mem_flatMap.mp hin
    exact Node.notMem_handles_of_mem_kids hd hk hin
  rw [(issued_refill hp v).old _ (by rwa [size_vacateAll]), slot?_vacateAll,
    if_neg hnot, hp.slot]

/-- Overwriting a node that is held succeeds, and its parts are released first.  The check that the
node is still in use, which comes after its parts are released, finds it so. -/
theorem overwrite_of_holds (hp : Holds doc p c) (hd : c.handles.Nodup) (v : Value) :
    doc.overwrite c.id v = .ok (doc.refill c v) := by
  have hdk : (c.kids.flatMap Node.handles).Nodup :=
    (List.nodup_cons.mp (Node.handles_eq c ▸ hd)).2
  have hrelease : doc.release c.content.parts = doc.vacateAll (c.kids.flatMap Node.handles) := by
    -- The parts are trees of their own, and releasing them leaves nothing to release.
    have hr := release_of_holds [] (fun k hk => ⟨_, hp.kids k hk⟩) hdk
    rwa [List.append_nil, release_nil, ← Node.parts_content] at hr
  simp only [Document.overwrite, Document.slot, hp.slot, bind, Except.bind, hrelease]
  rw [slot?_build hp hd v]
  rfl

/-- The node holds the labelled value under its own handle. -/
theorem holds_refill (hp : Holds doc p c) (hd : c.handles.Nodup) (v : Value) :
    Holds (doc.refill c v) p (Node.label c.id doc.slots.size v) := by
  have hlt := lt_size_of_slot? hp.slot
  obtain ⟨hcontent, -, hkids⟩ := build_spec c.id v
    (doc.vacateAll (c.kids.flatMap Node.handles)) (by rwa [size_vacateAll])
  rw [size_vacateAll] at hcontent hkids
  refine .intro ?_ (by rw [Node.id_label]; exact hp.after) fun d hkid => ?_
  · rw [Node.id_label, refill, slot?_update, if_pos rfl, slot?_build hp hd v, hcontent]
    rfl
  · rw [Node.id_label]
    refine (hkids d hkid).congr fun k hk => slot?_refill_of_ne doc c v ?_
    rintro rfl
    have hnot := Node.notMem_handles_of_mem_kids (Node.nodup_handles_label hlt v) hkid
    rw [Node.id_label] at hnot
    exact hnot hk

/-! ## The slots of a node without a part -/

variable {key : Key} {k : Node}

/-- The document without a part of a node: the node forgets the part, and the slots of the part are
emptied. -/
def without (doc : Document) (c k : Node) : Document :=
  (doc.update c.id (Content.remove k.id)).vacateAll k.handles

/-- Removing a part of a node that is held succeeds and answers the value of the part. -/
theorem removeNode_of_holds (hp : Holds doc p c) (hd : c.handles.Nodup)
    (hk : c.part? key = some k) : doc.removeNode k.id = .ok (k.value, doc.without c k) := by
  have hkid := Node.mem_kids_of_part? hk
  have hkp : Holds doc (some c.id) k := hp.kids k hkid
  have hnodup : k.handles.Nodup :=
    (List.nodup_append.mp ((Node.perm_handles_dropPart hk).nodup_iff.mp hd)).2.1
  have hrelease : (doc.update c.id (Content.remove k.id)).release ([k].map Node.id ++ []) = _ :=
    release_of_holds [] ?_ (by simpa using hnodup)
  · rw [List.flatMap_singleton, release_nil] at hrelease
    simp only [removeNode, slot, hkp.slot, hp.slot, value,
      node_of_holds hkp, bind, Except.bind, Except.map]
    exact congrArg (fun d => Except.ok (k.value, d)) hrelease
  · -- The container is not below the part, so the part is still held when it is forgotten.
    intro m hm
    obtain rfl := List.mem_singleton.mp hm
    refine ⟨_, hkp.congr fun j hj => ?_⟩
    rw [slot?_update, if_neg]
    rintro rfl
    exact Node.notMem_handles_of_mem_kids hd hkid hj

/-- Slot by slot: those of the part are empty, that of the node has lost the part, and the others
are as before. -/
theorem slot?_without (hp : Holds doc p c) (hd : c.handles.Nodup) (hk : c.part? key = some k)
    (j : Nat) :
    (doc.without c k).slot? j = if j ∈ k.handles then none else
      if c.id = j then some ⟨p, (c.dropPart key).content⟩ else doc.slot? j := by
  have hcontent : c.content.remove k.id = (c.dropPart key).content :=
    Node.content_dropPart hk (Node.nodup_ids (List.nodup_cons.mp (Node.handles_eq c ▸ hd)).2)
  rw [without, slot?_vacateAll, slot?_update]
  by_cases hj : c.id = j
  · subst hj
    simp [hp.slot, hcontent]
  · simp [hj]

/-- The node holds the other parts as before. -/
theorem holds_without (hp : Holds doc p c) (hd : c.handles.Nodup) (hk : c.part? key = some k) :
    Holds (doc.without c k) p (c.dropPart key) := by
  have hid := Node.id_dropPart key c
  obtain ⟨-, -, hdisj⟩ :=
    List.nodup_append.mp ((Node.perm_handles_dropPart hk).nodup_iff.mp hd)
  refine .intro ?_ (hid ▸ hp.after) fun d hkid => ?_
  · have hnot := Node.notMem_handles_of_mem_kids hd (Node.mem_kids_of_part? hk)
    rw [hid, slot?_without hp hd hk, if_neg hnot, if_pos rfl]
  · rw [hid]
    have hdc := Node.mem_kids_of_mem_kids_dropPart hk hkid
    refine (hp.kids d hdc).congr fun j hj => ?_
    have hjc : c.id ≠ j := by
      rintro rfl
      exact Node.notMem_handles_of_mem_kids hd hdc hj
    have hjk : j ∉ k.handles := fun hin =>
      hdisj j (Node.handles_subset_of_mem_kids hkid hj) j hin rfl
    rw [slot?_without hp hd hk, if_neg hjk, if_neg hjc]

end Document

namespace Shape

open Document (Holds Issued)

variable {doc : Document} {n c : Node} {path : Path}

/-- A document made of a value has the shape of its labelled tree.  There is nothing before the
first slot, so what is issued in building the value is all that there is. -/
theorem ofValue {v : Value} (hv : v.Ordered) :
    Shape (Document.ofValue v) (Node.label 0 1 v) := by
  obtain ⟨hid, hissued, hheld⟩ := Document.alloc_spec none v ⟨#[], 0, 0⟩ (by simp)
  have hslot : ∀ k, (Document.ofValue v).slot? k
      = (Document.alloc none v ⟨#[], 0, 0⟩).2.slot? k := fun _ => rfl
  refine ⟨?_, hheld.congr fun k _ => hslot k, Node.nodup_handles_label Nat.one_pos v, ?_, ?_, ?_⟩
  · rw [Node.id_label]
    exact hid.symm
  · intro k hk
    obtain ⟨slot, hs⟩ := Option.isSome_iff_exists.mp hk
    have hlt := Document.lt_size_of_slot? hs
    have hsize : (Document.ofValue v).slots.size = 0 + v.size := hissued.size
    rw [Node.mem_handles_label]
    omega
  · rw [Node.length_handles_label]
    exact hissued.live.trans (Nat.zero_add _)
  · rw [Node.value_label]
    exact hv

/-- Every tree below the root is without repetition. -/
theorem nodup_at? (h : Shape doc n) (hc : n.at? path = some c) : c.handles.Nodup := by
  obtain ⟨before, after, hb, -⟩ := Node.handles_updateAt hc
  have hd : (before ++ c.handles ++ after).Nodup := hb ▸ h.nodup
  exact (List.nodup_append.mp (List.nodup_append.mp hd).1).2.1

/-- A tree below the root has no more handles than there are live nodes. -/
theorem length_handles_le (h : Shape doc n) (hc : n.at? path = some c) :
    c.handles.length ≤ doc.live := by
  obtain ⟨before, after, hb, -⟩ := Node.handles_updateAt hc
  rw [h.live, hb]
  simp only [List.length_append]
  omega

/-- Handles below the root are among those that were issued. -/
theorem lt_size_of_at? (h : Shape doc n) (hc : n.at? path = some c) {k : Nat}
    (hk : k ∈ c.handles) : k < doc.slots.size :=
  h.lt_size (Node.handles_subset_of_at? hc hk)

/-- Every value below the root is in order. -/
theorem ordered_at? (h : Shape doc n) (hc : n.at? path = some c) : c.value.Ordered := by
  have hv : n.value.get? path = some c.value := by rw [← Node.value_at?, hc]; rfl
  exact h.ordered.get? hv

/-! ## Overwriting -/

/-- An overwritten node keeps its handle, and its parts get new ones.  The handles of the node go,
but for its own, and as many are issued as the new value has parts. -/
theorem overwrite (h : Shape doc n) (hc : n.at? path = some c) {v : Value} (hv : v.Ordered) :
    ∃ doc', doc.overwrite c.id v = .ok doc' ∧
      Shape doc' (n.updateAt (fun _ => Node.label c.id doc.slots.size v) path) := by
  obtain ⟨p, hp⟩ := h.holds.at? hc
  have hd := h.nodup_at? hc
  have hltc : c.id < doc.slots.size := h.lt_size_of_at? hc c.id_mem_handles
  have hissued := Document.issued_refill hp v
  refine ⟨_, Document.overwrite_of_holds hp hd v, ?_⟩
  refine h.updateAt hc (Node.id_label _ _ v) ?_ ?_ ?_ (Node.nodup_handles_label hltc v) ?_ ?_ ?_ ?_
  · exact hissued.top.trans (Document.top_vacateAll _ doc)
  · intro k hk hkc
    have hkid : k ≠ c.id := by
      rintro rfl
      exact hkc c.id_mem_handles
    rw [Document.slot?_refill_of_lt hp v hkid (h.lt_size hk), if_neg hkc]
  · intro q hq
    obtain rfl := hp.parent_eq hq
    exact Document.holds_refill hq hd v
  · intro k hk
    -- The root of the new tree has the old handle, and the handles of its parts are all new.
    rcases Node.mem_handles_label.mp hk with rfl | ⟨hk, -⟩
    · exact Or.inl c.id_mem_handles
    · exact Or.inr fun hin => absurd (h.lt_size hin) (by omega)
  · intro k hk
    by_cases hkid : k = c.id
    · exact Or.inl (Node.mem_handles_label.mpr (Or.inl hkid))
    by_cases hlt : k < doc.slots.size
    · rw [Document.slot?_refill_of_lt hp v hkid hlt] at hk
      split at hk
      · contradiction
      · rename_i hkc
        exact Or.inr ⟨hk, hkc⟩
    · rw [Document.slot?_refill_of_ne doc c v hkid] at hk
      obtain ⟨slot, hs⟩ := Option.isSome_iff_exists.mp hk
      have hltb := Document.lt_size_of_slot? hs
      rw [hissued.size, Document.size_vacateAll] at hltb
      exact Or.inl (Node.mem_handles_label.mpr (Or.inr ⟨by omega, hltb⟩))
  · have hlen := h.length_handles_le hc
    have hsize := Node.one_le_size v
    have hlive : (doc.refill c v).live
        = (doc.vacateAll (c.kids.flatMap Node.handles)).live + (v.size - 1) := hissued.live
    rw [Document.live_vacateAll] at hlive
    rw [Node.length_handles_label, hlive, Node.handles_eq, List.length_cons] at *
    omega
  · rw [Node.value_label]
    exact hv

/-! ## Adding parts -/

/-- Trees in newly issued slots become parts of a container.  It is the same wherever in the row
they are put: a field goes to its place in the order, an element to the end.  What has to be checked
is local to the container, and what is outside it is carried over. -/
theorem grow (h : Shape doc n) (hc : n.at? path = some c) {c' : Node} {d : Document} {count : Nat}
    {g : Content → Content} (added before after : List Node) (hissued : Issued doc d count)
    (hheld : ∀ t ∈ added, Holds d (some c.id) t)
    (hhandles : added.flatMap Node.handles = List.range' doc.slots.size count)
    (hid : c'.id = c.id) (hcontent : g c.content = c'.content)
    (hkids : c.kids = before ++ after) (hkids' : c'.kids = before ++ added ++ after)
    (hordered : c'.value.Ordered) :
    Shape (d.update c.id g) (n.updateAt (fun _ => c') path) := by
  have hltc : c.id < doc.slots.size := h.lt_size_of_at? hc c.id_mem_handles
  have hslot : ∀ k, k ≠ c.id → (d.update c.id g).slot? k = d.slot? k := fun k hk => by
    rw [Document.slot?_update, if_neg (Ne.symm hk)]
  have hnew : ∀ k ∈ List.range' doc.slots.size count, doc.slots.size ≤ k := fun k hk =>
    (List.mem_range'_1.mp hk).1
  -- The handles are those from before and the ones just issued, whatever the place in the row.
  have hperm : List.Perm c'.handles (c.handles ++ List.range' doc.slots.size count) := by
    rw [Node.handles_eq, Node.handles_eq, hid, hkids, hkids', List.cons_append, List.flatMap_append,
      List.flatMap_append, List.flatMap_append, hhandles, List.append_assoc, List.append_assoc]
    exact .cons _ (.append_left _ List.perm_append_comm)
  have hmem : ∀ k, k ∈ c'.handles ↔ k ∈ c.handles ∨ k ∈ List.range' doc.slots.size count := by
    intro k
    rw [hperm.mem_iff, List.mem_append]
  refine h.updateAt hc hid ?_ ?_ ?_ ?_ ?_ ?_ ?_ hordered
  · exact hissued.top
  · intro k hk hkc
    rw [hslot k fun e => hkc (e ▸ c.id_mem_handles), hissued.old k (h.lt_size hk)]
  · -- The container holds its parts from before and the new ones.
    intro p hp
    have hpd : Holds d p c := hissued.holds hp
    refine .intro ?_ (hid ▸ hp.after) fun t ht => ?_
    · rw [hid, Document.slot?_update, if_pos rfl, hpd.slot, ← hcontent]
      rfl
    · rw [hid]
      have hcases : t ∈ c.kids ∨ t ∈ added := by
        rw [hkids'] at ht
        rw [hkids]
        grind
      rcases hcases with ht | ht
      · refine (hissued.holds (hp.kids t ht)).congr fun k hk => hslot k ?_
        rintro rfl
        exact Node.notMem_handles_of_mem_kids (h.nodup_at? hc) ht hk
      · refine (hheld t ht).congr fun k hk => hslot k ?_
        have := hnew k (hhandles ▸ List.mem_flatMap.mpr ⟨t, ht, hk⟩)
        omega
  · refine hperm.nodup_iff.mpr (List.nodup_append.mpr ⟨h.nodup_at? hc, List.nodup_range', ?_⟩)
    rintro k hk j hj rfl
    have := h.lt_size_of_at? hc hk
    have := hnew k hj
    omega
  · intro k hk
    rcases (hmem k).mp hk with hk | hk
    · exact Or.inl hk
    · refine Or.inr fun hin => ?_
      have := h.lt_size hin
      have := hnew k hk
      omega
  · intro k hk
    by_cases hkid : k = c.id
    · exact Or.inl ((hmem k).mpr (Or.inl (hkid ▸ c.id_mem_handles)))
    · rw [hslot k hkid] at hk
      by_cases hlt : k < doc.slots.size
      · rw [hissued.old k hlt] at hk
        by_cases hkc : k ∈ c.handles
        · exact Or.inl ((hmem k).mpr (Or.inl hkc))
        · exact Or.inr ⟨hk, hkc⟩
      · obtain ⟨slot, hs⟩ := Option.isSome_iff_exists.mp hk
        have hltd := Document.lt_size_of_slot? hs
        rw [hissued.size] at hltd
        exact Or.inl ((hmem k).mpr (Or.inr (List.mem_range'_1.mpr ⟨by omega, hltd⟩)))
  · have hlive : (d.update c.id g).live = doc.live + count := hissued.live
    rw [hlive, hperm.length_eq, List.length_append, List.length_range']
    omega

/-- A new field gets the slots after the last.  Its place in the row is where the order of the names
puts it. -/
theorem newField {id : Nat} {fields : List (String × Node)} {name : String} {v : Value}
    (h : Shape doc n) (hc : n.at? path = some (.object id fields))
    (hname : Fields.find? name fields = none) (hv : v.Ordered) :
    let t := Node.label doc.slots.size (doc.slots.size + 1) v
    Shape ((doc.alloc (some id) v).2.update id (Content.insertField name doc.slots.size))
      (n.updateAt (fun _ => .object id (Fields.insert name t fields)) path) := by
  intro t
  have hlt : id < doc.slots.size := h.lt_size_of_at? hc (Node.id_mem_handles (.object id fields))
  obtain ⟨-, hissued, hheld⟩ := Document.alloc_spec (some id) v doc
    (fun p hp => Option.some.inj hp ▸ hlt)
  have ht : t.value.Ordered := (Node.value_label ..).symm ▸ hv
  have hcontent := Node.content_insert id name t fields
  rw [Node.id_label] at hcontent
  obtain ⟨before, after, hfields, hinsert⟩ := Fields.split_insert hname t
  have hplace := Node.place?_insert id name t fields
  refine h.grow hc [t] (before.map (·.2)) (after.map (·.2)) hissued ?_ ?_ rfl hcontent.symm ?_ ?_
    ((h.ordered_at? hc).place? ht hplace)
  · intro k hk
    obtain rfl := List.mem_singleton.mp hk
    exact hheld
  · rw [List.flatMap_singleton, Node.handles_label, Node.cons_range'_size]
  · simp [Node.kids, hfields]
  · simp [Node.kids, hinsert]

/-- Each of the nulls takes one slot. -/
theorem sizeItems_replicate_null (count : Nat) :
    Value.sizeItems (List.replicate count .null) = count := by
  induction count with
  | zero => rfl
  | succ count ih =>
    rw [List.replicate_succ, Value.sizeItems, ih]
    exact Nat.add_comm 1 count

/-- Nulls and a value after them are what placing the value that far beyond the end adds. -/
theorem place?_newItem (id next padding : Nat) (items : List Node) (t : Node) :
    (Node.array id items).value.place? (.index (items.length + padding)) t.value
      = some (Node.array id
        (items ++ (Node.labelItems next (List.replicate padding .null) ++ [t]))).value := by
  have hvalues : (Node.labelItems next (List.replicate padding .null)).map Node.value
      = List.replicate padding .null := by
    rw [← Node.valueItems_eq_map, Node.value_labelItems]
  have hlength : (Node.labelItems next (List.replicate padding .null)).length = padding := by
    rw [Node.length_labelItems, List.length_replicate]
  have hplace := Node.place?_append id items _ t (by rw [hvalues, hlength])
  rwa [hlength] at hplace

/-- A new element gets the slots after the last, and so do the nulls before it.  The nulls fill the
positions between the last element and the new one, and are parts like it. -/
theorem newItem {id : Nat} {items : List Node} {v : Value} (h : Shape doc n) (padding : Nat)
    (hc : n.at? path = some (.array id items)) (hv : v.Ordered) :
    let nulls := Node.labelItems doc.slots.size (List.replicate padding .null)
    let t := Node.label (doc.slots.size + padding) (doc.slots.size + padding + 1) v
    let (hs, d) := doc.buildItems id (List.replicate padding .null)
    let (k, d) := d.alloc (some id) v
    Shape (d.update id (Content.appendItems (hs ++ [k])))
      (n.updateAt (fun _ => .array id (items ++ (nulls ++ [t]))) path) := by
  intro nulls t
  have hlt : id < doc.slots.size := h.lt_size_of_at? hc (Node.id_mem_handles (.array id items))
  obtain ⟨hids, hissued, hnulls⟩ :=
    Document.buildItems_spec id (List.replicate padding .null) doc hlt
  rw [sizeItems_replicate_null] at hissued
  -- The nulls are built first, and the value behind them.
  let d := (doc.buildItems id (List.replicate padding .null)).2
  have hlast : d.slots.size = doc.slots.size + padding := hissued.size
  obtain ⟨hk, hissued', hheld⟩ := Document.alloc_spec (some id) v d
    (fun p hp => Option.some.inj hp ▸ (by rw [hlast]; omega))
  rw [hlast] at hk hheld
  show Shape ((d.alloc (some id) v).2.update id (Content.appendItems
    ((doc.buildItems id (List.replicate padding .null)).1 ++ [(d.alloc (some id) v).1]))) _
  -- What is put at the end are the handles of these trees, in order.
  have hadded : (doc.buildItems id (List.replicate padding .null)).1 ++ [(d.alloc (some id) v).1]
      = (nulls ++ [t]).map Node.id := by
    rw [hids, hk, List.map_append, List.map_singleton, Node.id_label]
  have ht : t.value.Ordered := (Node.value_label ..).symm ▸ hv
  have hplace := place?_newItem id doc.slots.size padding items t
  refine h.grow hc (nulls ++ [t]) items []
    (hissued.trans hissued') ?_ ?_ rfl ?_ (by simp [Node.kids]) (by simp [Node.kids])
    ((h.ordered_at? hc).place? ht hplace)
  · intro k hk
    rcases List.mem_append.mp hk with hk | hk
    · exact hissued'.holds (hnulls k hk)
    · obtain rfl := List.mem_singleton.mp hk
      exact hheld
  · rw [List.flatMap_append, List.flatMap_singleton, ← Node.handlesItems_eq,
      Node.handles_labelItems, sizeItems_replicate_null, Node.handles_label, Node.cons_range'_size,
      List.range'_append_1]
  · rw [hadded, ← Node.content_append]

/-! ## Removing a part -/

/-- A removed node takes the nodes below it along.  The container keeps its handle and its other
parts, and the positions of the elements behind the part move up by one. -/
theorem removeNode (h : Shape doc n) (hc : n.at? path = some c) {key : Key} {k : Node}
    (hk : c.part? key = some k) :
    ∃ doc', doc.removeNode k.id = .ok (k.value, doc') ∧
      Shape doc' (n.updateAt (Node.dropPart key) path) := by
  obtain ⟨p, hp⟩ := h.holds.at? hc
  have hd := h.nodup_at? hc
  have hid : (c.dropPart key).id = c.id := Node.id_dropPart key c
  -- The handles before are those that stay and those of the part.
  have hperm := Node.perm_handles_dropPart hk
  have hmem : ∀ j, j ∈ c.handles ↔ j ∈ (c.dropPart key).handles ∨ j ∈ k.handles := fun j => by
    rw [hperm.mem_iff, List.mem_append]
  refine ⟨_, Document.removeNode_of_holds hp hd hk, h.updateAt hc hid ?_ ?_ ?_ ?_ ?_ ?_ ?_ ?_⟩
  · exact Document.top_vacateAll _ _
  · intro j hj hjc
    rw [Document.slot?_without hp hd hk, if_neg fun hin => hjc ((hmem j).mpr (Or.inr hin)),
      if_neg (by rintro rfl; exact hjc c.id_mem_handles)]
  · intro q hq
    obtain rfl := hp.parent_eq hq
    exact Document.holds_without hq hd hk
  · exact (List.nodup_append.mp (hperm.nodup_iff.mp hd)).1
  · exact fun j hj => Or.inl ((hmem j).mpr (Or.inl hj))
  · -- What is still in use is the node, which has lost a part, or was outside it.
    intro j hj
    rw [Document.slot?_without hp hd hk] at hj
    split at hj
    · contradiction
    · rename_i hjk
      split at hj
      · rename_i e
        refine Or.inl ?_
        rw [← e, ← hid]
        exact Node.id_mem_handles _
      · by_cases hjc : j ∈ c.handles
        · exact Or.inl (((hmem j).mp hjc).resolve_right hjk)
        · exact Or.inr ⟨hj, hjc⟩
  · have hle := h.length_handles_le hc
    have hlive : (doc.without c k).live = doc.live - k.handles.length := Document.live_vacateAll _ _
    have hlength : c.handles.length = (c.dropPart key).handles.length + k.handles.length := by
      rw [hperm.length_eq, List.length_append]
    rw [hlive]
    omega
  · exact (h.ordered_at? hc).drop? (Node.drop?_dropPart hk)

end Shape

end Expansion
