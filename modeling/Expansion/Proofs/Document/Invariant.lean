import Expansion.Proofs.Document.Refinement

/-!
  The representation invariant of documents.

  `WellFormed` says of the slots themselves what `Shape` says through a tree: the root is in use and
  has no container; every other slot in use has a container, issued before it, that lists it once;
  what a container lists is in use and names the container; the root leads to every slot in use; and
  the count of slots in use is right, which is also the number of values in the document.

  Every reachable document is well formed, and reading by handle never fails on it for a handle in
  use (`Readable`).  Both are read off the tree in the slots.  A handle in use is the handle at some
  path of the tree (`Shape.exists_at?_of_slot?`), and the last key of that path leads to it from its
  container, so the two cases are always the root and a part of a node (`Shape.root_or_part`).
-/

namespace Expansion

/-! ## What a tree and its value have in common -/

namespace Node

mutual

/-- A tree has a handle for each value in its value. -/
theorem length_handles : (n : Node) → n.handles.length = n.value.size
  | scalar _ _ => rfl
  | array _ items => by
    show (handlesItems items).length + 1 = 1 + Value.sizeItems (valueItems items)
    rw [length_handlesItems items, Nat.add_comm]
  | object _ fields => by
    show (handlesFields fields).length + 1 = 1 + Value.sizeFields (valueFields fields)
    rw [length_handlesFields fields, Nat.add_comm]

/-- The same for the elements. -/
theorem length_handlesItems : (items : List Node) →
    (handlesItems items).length = Value.sizeItems (valueItems items)
  | [] => rfl
  | n :: rest => by
    show (n.handles ++ handlesItems rest).length
      = n.value.size + Value.sizeItems (valueItems rest)
    rw [List.length_append, length_handles n, length_handlesItems rest]

/-- The same for the fields. -/
theorem length_handlesFields : (fields : List (String × Node)) →
    (handlesFields fields).length = Value.sizeFields (valueFields fields)
  | [] => rfl
  | (_, n) :: rest => by
    show (n.handles ++ handlesFields rest).length
      = n.value.size + Value.sizeFields (valueFields rest)
    rw [List.length_append, length_handles n, length_handlesFields rest]

end

/-- What a key leads to is listed by the container. -/
theorem mem_parts_of_part? {key : Key} {n c : Node} (h : n.part? key = some c) :
    c.id ∈ n.content.parts := by
  rw [parts_content]
  exact List.mem_map_of_mem (mem_kids_of_part? h)

/-- When no two parts have the same handle, the handle of a part leads back to its key. -/
theorem keyOf?_content {key : Key} {n c : Node} (h : n.part? key = some c)
    (hd : (n.kids.map id).Nodup) : n.content.keyOf? c.id = some key := by
  cases n with
  | scalar root s => simp [part?] at h
  | array root items =>
    cases key with
    | field name => simp [part?, Key.index?] at h
    | index i =>
      obtain ⟨hlt, rfl⟩ := List.getElem?_eq_some_iff.mp h
      have hlt' : i < (items.map id).length := by rwa [List.length_map]
      have hid : (items.map id)[i] = items[i].id := List.getElem_map ..
      -- The first element with this handle is the one at `i`, since no other has it.
      have hindex : (items.map id).idxOf? items[i].id = some i := by
        rw [List.idxOf?_eq_some_iff]
        refine ⟨hlt', by simp, fun j hj => ?_⟩
        have hjlt : j < (items.map id).length := Nat.lt_trans hj hlt'
        have hne : (items.map id)[j] ≠ (items.map id)[i] :=
          List.pairwise_iff_getElem.mp hd j i hjlt hlt' hj
        rw [hid] at hne
        simpa using hne
      show ((items.map id).idxOf? items[i].id).map Key.index = some (.index i)
      rw [hindex]
      rfl
  | object root fields =>
    cases key with
    | index i => simp [part?, Key.name?] at h
    | field name =>
      obtain ⟨before, after, rfl, -⟩ := Fields.split_of_find? h
      have hbefore : ∀ entry ∈ before.map (fun entry : String × Node => (entry.1, entry.2.id)),
          ¬ (entry.2 == c.id) = true := by
        intro entry hentry
        obtain ⟨⟨other, d⟩, hd', rfl⟩ := List.mem_map.mp hentry
        simp only [kids, List.map_append, List.map_cons] at hd
        have hne := (List.nodup_append.mp hd).2.2 d.id
          (List.mem_map.mpr ⟨d, List.mem_map.mpr ⟨_, hd', rfl⟩, rfl⟩) c.id List.mem_cons_self
        simpa using hne
      have hfind : List.find? (fun entry : String × Nat => entry.2 == c.id)
          ((before ++ (name, c) :: after).map fun entry => (entry.1, entry.2.id))
          = some (name, c.id) := by
        rw [List.map_append, List.map_cons, List.find?_append,
          List.find?_eq_none.mpr hbefore, Option.none_or]
        exact List.find?_cons_of_pos (by simp)
      show (List.find? _ _).map (fun entry : String × Nat => Key.field entry.1) = _
      rw [hfind]
      rfl

end Node

namespace Document

/-! ## Counting the slots in use -/

variable {doc d : Document}

/-- The slots in use, by handle.  The array that is counted through is the one that the handles
index. -/
theorem occupied_eq (doc : Document) :
    doc.occupied = ((List.range doc.slots.size).filter fun k => (doc.slot? k).isSome).length := by
  have hslots : doc.slots.toList = (List.range doc.slots.size).map doc.slot? := by
    refine List.ext_getElem (by simp) fun k hk hk' => ?_
    have hlt : k < doc.slots.size := hk
    simp [slot?, hlt]
  rw [occupied, ← Array.countP_toList, hslots, List.countP_map, List.countP_eq_length_filter]
  rfl

/-- The count of slots in use is right. -/
def Counted (doc : Document) : Prop := doc.live = doc.occupied

/-- What `release` does to a slot in use, it does to a document whose count is not used up yet. -/
theorem Counted.live_pos {k : Nat} {slot : Slot} (h : doc.Counted) (hs : doc.slot? k = some slot) :
    0 < doc.live := by
  have hlt := occupied_vacate_lt hs
  rw [h]
  omega

/-- One slot less is in use when one is emptied. -/
theorem occupied_vacate {k : Nat} {slot : Slot} (hs : doc.slot? k = some slot) :
    (doc.vacate k).occupied = doc.occupied - 1 := by
  obtain ⟨hlt, hat⟩ := Array.getElem?_eq_some_iff.mp (Option.join_eq_some_iff.mp hs)
  simp [occupied, vacate, Array.setIfInBounds, dif_pos hlt, Array.countP_set hlt, hat]

/-- The count stays right when a slot in use is emptied. -/
theorem Counted.vacate {k : Nat} {slot : Slot} (h : doc.Counted) (hs : doc.slot? k = some slot) :
    (doc.vacate k).Counted := by
  show doc.live - 1 = (doc.vacate k).occupied
  rw [occupied_vacate hs, h]

/-- The count stays right when a slot is filled again. -/
theorem Counted.update (h : doc.Counted) (k : Nat) (f : Content → Content) :
    (doc.update k f).Counted := by
  have hsame : ∀ j, ((doc.update k f).slot? j).isSome = (doc.slot? j).isSome := by
    intro j
    rw [slot?_update]
    split <;> simp
  show doc.live = (doc.update k f).occupied
  rw [h, occupied_eq, occupied_eq, size_update]
  simp only [hsame]

/-- In releasing nodes of a document, `release` comes to empty a slot of the document `d`. -/
inductive Empties : (doc : Document) → (handles : List Nat) → (d : Document) → Prop
  | here {doc : Document} {h : Nat} {slot : Slot} {rest : List Nat}
    (hs : doc.slot? h = some slot) : Empties doc (h :: rest) doc
  | stale {doc d : Document} {h : Nat} {rest : List Nat} (hs : doc.slot? h = none)
    (he : Empties doc rest d) : Empties doc (h :: rest) d
  | inside {doc d : Document} {h : Nat} {slot : Slot} {rest : List Nat}
    (hs : doc.slot? h = some slot)
    (he : Empties (doc.vacate h) (slot.content.parts ++ rest) d) : Empties doc (h :: rest) d

/-- Releasing never takes one off a count of zero. -/
theorem Counted.live_pos_of_empties {handles : List Nat} (h : doc.Counted)
    (he : Empties doc handles d) : 0 < d.live := by
  induction he with
  | here hs => exact h.live_pos hs
  | stale _ _ ih => exact ih h
  | inside hs _ ih => exact ih (h.vacate hs)

/-! ## The invariant -/

/-- The handles that the root leads to, from containers to their parts. -/
inductive Attached (doc : Document) : Nat → Prop
  | root : Attached doc doc.top
  | part {h k : Nat} {slot : Slot} (ha : Attached doc h) (hs : doc.slot? h = some slot)
    (hk : k ∈ slot.content.parts) : Attached doc k

/-- The slots of a document agree with each other and with the count. -/
structure WellFormed (doc : Document) : Prop where
  /-- The root is in use and has no container. -/
  root : ∃ content, doc.slot? doc.top = some ⟨none, content⟩
  /-- Every other slot in use has a container, issued before it, that lists it exactly once. -/
  container : ∀ k slot, doc.slot? k = some slot → k ≠ doc.top →
    ∃ p above, slot.parent = some p ∧ p < k ∧ doc.slot? p = some above ∧
      above.content.kind.isContainer ∧ above.content.parts.count k = 1
  /-- What a container lists is in use and names the container. -/
  parts : ∀ p above, doc.slot? p = some above → ∀ k ∈ above.content.parts,
    ∃ slot, doc.slot? k = some slot ∧ slot.parent = some p
  /-- The root leads to every slot in use. -/
  attached : ∀ k, (doc.slot? k).isSome → doc.Attached k
  /-- The count is the number of slots in use. -/
  len_eq_occupied : doc.len = doc.occupied
  /-- The count is the number of values in the document. -/
  len_eq_size : doc.len = doc.toValue.size

/-- Reading by a handle answers.  The bounds of the readings do not matter: with more levels or
steps than there can be they answer the same. -/
structure Readable (doc : Document) (k : Nat) : Prop where
  kind : ∃ kind, doc.kind k = .ok kind
  children : ∃ parts, doc.children k = .ok parts
  value : ∃ n, doc.value k = .ok n.value ∧
    ∀ levels, doc.slots.size ≤ levels → doc.nodeWithin levels k = .ok n
  path : ∃ path, doc.pathOf k = .ok path ∧ ∀ steps, k < steps → doc.climb steps k = .ok path

end Document

/-! ## Documents in shape -/

namespace Shape

open Document

variable {doc : Document} {n c : Node} {path : Path}

/-- A node of the tree is the root or a part of another node. -/
theorem root_or_part (h : Shape doc n) (hc : n.at? path = some c) :
    (path = [] ∧ c = n) ∨ ∃ before key above, path = before ++ [key] ∧ n.at? before = some above ∧
      above.part? key = some c ∧ doc.Holds (some above.id) c := by
  rcases List.eq_nil_or_concat path with rfl | ⟨before, key, rfl⟩
  · exact Or.inl ⟨rfl, (Option.some.inj hc).symm⟩
  · rw [List.concat_eq_append] at hc ⊢
    rw [Node.at?_append] at hc
    obtain ⟨above, habove, hpart⟩ := Option.bind_eq_some_iff.mp hc
    have hkey : above.part? key = some c := by
      rw [← at?_concat habove key, Node.at?_append, habove]
      exact hpart
    obtain ⟨p, hp⟩ := h.holds.at? habove
    exact Or.inr ⟨before, key, above, rfl, habove, hkey, hp.kids c (Node.mem_kids_of_part? hkey)⟩

/-- A container lists no part twice. -/
theorem nodup_parts (h : Shape doc n) (hc : n.at? path = some c) : (c.kids.map Node.id).Nodup := by
  have hd := h.nodup_at? hc
  rw [Node.handles_eq] at hd
  exact Node.nodup_ids (List.nodup_cons.mp hd).2

/-- The node at a path, in its slot. -/
theorem slot?_of_at? (h : Shape doc n) (hc : n.at? path = some c) :
    ∃ p, doc.slot? c.id = some ⟨p, c.content⟩ := by
  obtain ⟨p, hp⟩ := h.holds.at? hc
  exact ⟨p, hp.slot⟩

/-- Climbing from a node comes to the root along its path.  The induction is on the bound: a
container has a smaller handle than its parts. -/
theorem climb_of_at? (h : Shape doc n) {steps : Nat} (hc : n.at? path = some c)
    (hs : c.id < steps) : doc.climb steps c.id = .ok path := by
  induction steps generalizing path c with
  | zero => omega
  | succ steps ih =>
    rcases h.root_or_part hc with ⟨rfl, rfl⟩ | ⟨before, key, above, rfl, habove, hkey, hheld⟩
    · simp only [climb, slot_of_holds h.holds, bind, Except.bind]
      rfl
    · have hlt : above.id < c.id := hheld.after above.id rfl
      obtain ⟨p, hp⟩ := h.holds.at? habove
      have hfound := Node.keyOf?_content hkey (h.nodup_parts habove)
      have hup := ih habove (by omega)
      simp only [climb, slot_of_holds hheld, slot_of_holds hp, hfound, hup, bind, Except.bind]
      rfl

/-- Climbing from a node gives its path. -/
theorem pathOf_of_at? (h : Shape doc n) (hc : n.at? path = some c) : doc.pathOf c.id = .ok path :=
  h.climb_of_at? hc (Nat.lt_succ_self _)

/-- The root leads to the node at every path. -/
theorem attached_of_at? (h : Shape doc n) (hc : n.at? path = some c) : doc.Attached c.id := by
  induction hk : c.id using Nat.strongRecOn generalizing path c with
  | ind k ih =>
    subst hk
    rcases h.root_or_part hc with ⟨-, rfl⟩ | ⟨before, key, above, -, habove, hkey, hheld⟩
    · rw [h.top]
      exact .root
    · obtain ⟨p, hp⟩ := h.slot?_of_at? habove
      have hlt : above.id < c.id := hheld.after above.id rfl
      exact .part (ih above.id hlt habove rfl) hp (Node.mem_parts_of_part? hkey)

/-- The slots in use are the handles of the tree. -/
theorem occupied_eq (h : Shape doc n) : doc.occupied = n.handles.length := by
  have hperm : List.Perm ((List.range doc.slots.size).filter fun k => (doc.slot? k).isSome)
      n.handles := by
    rw [List.perm_ext_iff_of_nodup (List.nodup_range.filter _) h.nodup]
    intro k
    rw [List.mem_filter, List.mem_range]
    constructor
    · rintro ⟨-, hk⟩
      exact h.covers k hk
    · intro hk
      exact ⟨h.lt_size hk, h.holds.isSome_of_mem hk⟩
  rw [Document.occupied_eq, hperm.length_eq]

/-- The count of a document in shape is right. -/
theorem counted (h : Shape doc n) : doc.Counted := by
  show doc.live = doc.occupied
  rw [h.live, h.occupied_eq]

/-- The slots of a tree are well formed.  Every slot in use is that of a node at some path, so each
clause is looked up in the tree, for the root or for a part of a node. -/
theorem toWellFormed (h : Shape doc n) : doc.WellFormed := by
  constructor
  · have hslot := h.holds.slot
    rw [h.top] at hslot
    exact ⟨n.content, hslot⟩
  · -- A slot other than that of the root is that of a part, and its container is above it.
    intro k slot hk hne
    obtain ⟨path, c, hc, rfl⟩ := h.exists_at?_of_slot? hk
    rcases h.root_or_part hc with ⟨-, rfl⟩ | ⟨before, key, above, -, habove, hkey, hheld⟩
    · exact absurd h.top hne
    · obtain rfl : slot = ⟨some above.id, c.content⟩ := Option.some.inj (hk.symm.trans hheld.slot)
      obtain ⟨p, hp⟩ := h.slot?_of_at? habove
      refine ⟨above.id, _, rfl, hheld.after above.id rfl, hp, ?_, ?_⟩
      · show above.content.kind.isContainer = true
        cases above with
        | scalar id s => simp [Node.part?] at hkey
        | array id items => rfl
        | object id fields => rfl
      · have hnodup : above.content.parts.Nodup := by
          rw [Node.parts_content]
          exact h.nodup_parts habove
        rw [hnodup.count, if_pos (Node.mem_parts_of_part? hkey)]
  · -- What a container lists are the handles of its kids.
    intro p above hp k hk
    obtain ⟨path, c, hc, rfl⟩ := h.exists_at?_of_slot? hp
    obtain ⟨q, hq⟩ := h.holds.at? hc
    obtain rfl : above = ⟨q, c.content⟩ := Option.some.inj (hp.symm.trans hq.slot)
    rw [Node.parts_content] at hk
    obtain ⟨d, hd, rfl⟩ := List.mem_map.mp hk
    exact ⟨_, (hq.kids d hd).slot, rfl⟩
  · intro k hk
    obtain ⟨slot, hs⟩ := Option.isSome_iff_exists.mp hk
    obtain ⟨path, c, hc, rfl⟩ := h.exists_at?_of_slot? hs
    exact h.attached_of_at? hc
  · exact h.counted
  · show doc.live = doc.toValue.size
    rw [h.live, h.toValue_eq, Node.length_handles]

/-- A handle in use can be read. -/
theorem readable (h : Shape doc n) {k : Nat} (hk : (doc.slot? k).isSome) : doc.Readable k := by
  obtain ⟨slot, hs⟩ := Option.isSome_iff_exists.mp hk
  obtain ⟨path, c, hc, rfl⟩ := h.exists_at?_of_slot? hs
  obtain ⟨p, hp⟩ := h.holds.at? hc
  have hslot := slot_of_holds hp
  constructor
  · exact ⟨_, congrArg (Except.map _) hslot⟩
  · exact ⟨_, congrArg (Except.map _) hslot⟩
  · refine ⟨c, congrArg (Except.map Node.value) (node_of_holds hp), fun levels hl => ?_⟩
    exact nodeWithin_of_holds hp (by omega)
  · exact ⟨path, h.pathOf_of_at? hc, fun steps hlt => h.climb_of_at? hc hlt⟩

end Shape

/-! ## Reachable documents -/

namespace Document

/-- Every reachable document is well formed.  Its count of slots in use never falls below zero while
slots are released, neither those below an overwritten node nor those of a removed one, which its
container has forgotten by then.  Reading the whole document and reading by a handle in use never
fail. -/
theorem Reachable.wellFormed {doc : Document} (hr : doc.Reachable) :
    doc.WellFormed ∧
    (∀ k f handles d, Empties doc handles d ∨ Empties (doc.update k f) handles d → 0 < d.live) ∧
    doc.value doc.top = .ok doc.toValue ∧
    ∀ k, (doc.slot? k).isSome → doc.Readable k := by
  obtain ⟨n, hn⟩ := hr.inShape
  have hcounted := hn.counted
  refine ⟨hn.toWellFormed, ?_, ?_, fun k hk => hn.readable hk⟩
  · rintro k f handles d (he | he)
    · exact hcounted.live_pos_of_empties he
    · exact (hcounted.update k f).live_pos_of_empties he
  · have hnode := hn.node
    show (doc.node doc.top).map Node.value = .ok doc.toValue
    rw [hnode, hn.toValue_eq]
    rfl

/-- Two nodes are left of four when a field with an element is removed. -/
theorem Reachable.wellFormed_of_delete :
    let before := Document.ofValue (.object [("a", .array [.null]), ("b", .null)])
    let doc := ((Change.delete [.field "a"]).apply before).value.2
    doc.toValue = .object [("b", .null)] ∧ doc.len = 2 ∧ doc.WellFormed ∧
      doc.Readable doc.top := by
  intro before doc
  have ho : (Value.object [("a", .array [.null]), ("b", .null)]).Ordered := by
    refine ⟨?_, ⟨trivial, trivial⟩, trivial, trivial⟩
    exact List.pairwise_pair.mpr (by decide)
  have hbefore : before.Reachable := Reachable.ofValue ho
  have hdoc : doc.Reachable := hbefore.change (c := .delete [.field "a"]) trivial
  have hvalue : doc.toValue = .object [("b", .null)] := by
    have hremoved : before.toValue.remove? [.field "a"] = some (.object [("b", .null)]) := by
      rw [toValue_ofValue ho]
      rfl
    obtain ⟨w, after, hd, -, hafter⟩ := hbefore.inShape.exists_remove hremoved
    have hsame : doc = after := by
      show ((delete [.field "a"] >>= fun _ => pure ()) before).value.2 = after
      rw [Edit.value_bind, value_delete, hd]
      rfl
    rw [hsame, hafter]
  obtain ⟨hwell, -, -, hreadable⟩ := hdoc.wellFormed
  refine ⟨hvalue, ?_, hwell, hreadable doc.top ?_⟩
  · rw [hwell.len_eq_size, hvalue]
    rfl
  · obtain ⟨content, hroot⟩ := hwell.root
    rw [hroot]
    rfl

end Document

end Expansion
