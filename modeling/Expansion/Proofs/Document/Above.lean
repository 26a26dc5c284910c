import Expansion.Proofs.Document.Invariant

/-!
  Nodes above nodes.

  `doc.Above a h` says that climbing from `h` to its container, and on from there, comes to `a`.
  In a document in shape the nodes at and below a node are the handles of its tree
  (`Shape.mem_handles_iff`), and no node is above itself (`InShape.lt_of_above`).  Of two nodes
  above one node, one is above the other (`Above.comparable`), since a node has one container.

  The value of a node is read off the slots at and below it, so it stays where those stay
  (`InShape.value_congr`).  `Leaves` says what a change leaves alone, apart from the nodes that go
  and those that are touched; `InShape.leaves_of_changed` is how a change is shown to do so: by the
  slots that it changes.
-/

namespace Expansion

namespace Document

/-- The node `a` is above another: its container, or above its container. -/
inductive Above (doc : Document) (a : Nat) : Nat → Prop
  | parent {h : Nat} (hp : doc.parent h = .ok (some a)) : Above doc a h
  | up {h p : Nat} (hp : doc.parent h = .ok (some p)) (ha : Above doc a p) : Above doc a h

variable {doc doc' : Document} {a b h k : Nat} {p : Option Nat} {x : Value}

/-! ## Reading the slot of a handle -/

/-- A node has the container that its slot names. -/
theorem parent_eq_ok_iff :
    doc.parent h = .ok p ↔ ∃ content, doc.slot? h = some ⟨p, content⟩ := by
  simp only [parent, slot]
  cases doc.slot? h with
  | none => simp [Except.map]
  | some s =>
    obtain ⟨q, content⟩ := s
    simp [Except.map]

/-- A node that is held has the container that it is held in. -/
theorem parent_of_holds {n : Node} (hn : Holds doc p n) : doc.parent n.id = .ok p :=
  parent_eq_ok_iff.mpr ⟨n.content, hn.slot⟩

/-- A node with a container is in use. -/
theorem isSome_slot?_of_parent (hp : doc.parent h = .ok p) : (doc.slot? h).isSome := by
  obtain ⟨content, hs⟩ := parent_eq_ok_iff.mp hp
  rw [hs]
  rfl

/-- An empty slot is refused as stale. -/
theorem slot_of_stale (hs : doc.slot? h = none) : doc.slot h = .error (.staleNode h) := by
  rw [slot, hs]

/-- An empty slot has no value. -/
theorem value_of_stale (hs : doc.slot? h = none) : doc.value h = .error (.staleNode h) := by
  rw [value, node]
  cases doc.slots.size with
  | zero => rfl
  | succ levels =>
    rw [nodeWithin, slot_of_stale hs]
    rfl

/-- A node with a value is in use. -/
theorem isSome_slot?_of_value (hv : doc.value h = .ok x) : (doc.slot? h).isSome := by
  cases hs : doc.slot? h with
  | none =>
    rw [value_of_stale hs] at hv
    cases hv
  | some s => rfl

/-! ## Containers of containers -/

namespace Above

/-- What is above a node that is above another is above that too. -/
theorem trans (hab : doc.Above a b) (hbk : doc.Above b k) : doc.Above a k := by
  induction hbk with
  | parent hp => exact .up hp hab
  | up hp _ ih => exact .up hp ih

/-- A node has one container, so the nodes above it stand above each other.  The climb goes the same
way from `k` to both of them, so the shorter climb is the start of the longer one. -/
theorem comparable (ha : doc.Above a k) (hb : doc.Above b k) :
    a = b ∨ doc.Above a b ∨ doc.Above b a := by
  induction ha with
  | parent hp =>
    cases hb with
    | parent hq =>
      rw [hp] at hq
      exact Or.inl (Option.some.inj (Except.ok.inj hq))
    | up hq hb =>
      obtain rfl := Option.some.inj (Except.ok.inj (hp.symm.trans hq))
      exact Or.inr (Or.inr hb)
  | up hp ha ih =>
    cases hb with
    | parent hq =>
      obtain rfl := Option.some.inj (Except.ok.inj (hp.symm.trans hq))
      exact Or.inr (Or.inl ha)
    | up hq hb =>
      obtain rfl := Option.some.inj (Except.ok.inj (hp.symm.trans hq))
      exact ih hb

/-- What is at or above a node at or below `a` is at or below `a`, or above it. -/
theorem near (hk : k = a ∨ doc.Above a k) (hh : h = k ∨ doc.Above h k) :
    (h = a ∨ doc.Above a h) ∨ doc.Above h a := by
  rcases hh with rfl | hh
  · exact Or.inl hk
  rcases hk with rfl | hk
  · exact Or.inr hh
  rcases hh.comparable hk with heq | habove | hbelow
  · exact Or.inl (Or.inl heq)
  · exact Or.inr habove
  · exact Or.inl (Or.inr hbelow)

/-- What is above a node stays above it when the nodes on the way stay in their containers.  The
induction is on the climb; what is asked of the other document is only asked of the nodes that the
climb comes through. -/
theorem of_kept (ha : doc.Above a k)
    (hkept : ∀ j p, j = k ∨ doc.Above j k → doc.parent j = .ok p → doc'.parent j = .ok p) :
    doc'.Above a k := by
  induction ha with
  | parent hp => exact .parent (hkept _ _ (Or.inl rfl) hp)
  | @up k q hp _ ih =>
    refine .up (hkept _ _ (Or.inl rfl) hp) (ih fun j p hj => hkept j p (Or.inr ?_))
    rcases hj with rfl | hj
    · exact .parent hp
    · exact .up hp hj

end Above

/-- What lies in a tree is its root or below it. -/
theorem Holds.above_of_mem_handles {n : Node} (hn : Holds doc p n) (hk : k ∈ n.handles) :
    k = n.id ∨ doc.Above n.id k := by
  induction hn with
  | @intro p n slot after kids ih =>
    rw [Node.handles_eq] at hk
    rcases List.mem_cons.mp hk with rfl | hk
    · exact Or.inl rfl
    · obtain ⟨c, hc, hk⟩ := List.mem_flatMap.mp hk
      have hparent : doc.Above n.id c.id := .parent (parent_of_holds (kids c hc))
      rcases ih c hc hk with rfl | hbelow
      · exact Or.inr hparent
      · exact Or.inr (hparent.trans hbelow)

end Document

namespace Shape

open Document

variable {doc : Document} {n c : Node} {path : Path} {k : Nat}

/-- The tree of a container holds the nodes that name it as their container. -/
theorem mem_handles_of_parent (h : Shape doc n) (hc : n.at? path = some c)
    (hp : doc.parent k = .ok (some c.id)) : k ∈ c.handles := by
  obtain ⟨content, hs⟩ := parent_eq_ok_iff.mp hp
  obtain ⟨path', d, hd, rfl⟩ := h.exists_at?_of_slot? hs
  rcases h.root_or_part hd with ⟨-, rfl⟩ | ⟨before, key, above, -, habove, hkey, hheld⟩
  · rw [parent_of_holds h.holds] at hp
    cases hp
  · have hid : c.id = above.id :=
      Option.some.inj (Except.ok.inj (hp.symm.trans (parent_of_holds hheld)))
    have hnode : doc.node c.id = .ok above := hid ▸ h.node_of_at? habove
    obtain rfl : c = above := Except.ok.inj ((h.node_of_at? hc).symm.trans hnode)
    exact Node.handles_subset_of_mem_kids (Node.mem_kids_of_part? hkey) d.id_mem_handles

/-- The handles of a tree are those of the nodes at and below its root. -/
theorem mem_handles_iff (h : Shape doc n) (hc : n.at? path = some c) :
    k ∈ c.handles ↔ k = c.id ∨ doc.Above c.id k := by
  obtain ⟨p, hp⟩ := h.holds.at? hc
  refine ⟨hp.above_of_mem_handles, ?_⟩
  rintro (rfl | ha)
  · exact c.id_mem_handles
  · induction ha with
    | parent hpar => exact h.mem_handles_of_parent hc hpar
    | up hpar _ ih =>
      obtain ⟨path', d, hd, rfl⟩ := exists_at?_of_mem_handles (h.ordered_at? hc) ih
      -- The container is at some path of the tree; its parts are handles of the tree with it.
      have hat : n.at? (path ++ path') = some d := by
        rw [Node.at?_append, hc]
        exact hd
      exact Node.handles_subset_of_at? hd (h.mem_handles_of_parent hat hpar)

end Shape

namespace Document

variable {doc doc' : Document} {h k : Nat} {x : Value}

/-- Containers are issued before their parts.  The invariant says so of one step up, and a climb is
made of such steps; in particular no node is above itself. -/
theorem InShape.lt_of_above (hd : doc.InShape) (ha : doc.Above h k) : h < k := by
  obtain ⟨n, hn⟩ := hd
  have hwell := hn.toWellFormed
  -- One step up goes to a smaller handle, which the invariant says of every slot but the root.
  have hstep : ∀ j p, doc.parent j = .ok (some p) → p < j := by
    intro j p hp
    obtain ⟨content, hs⟩ := parent_eq_ok_iff.mp hp
    have htop : j ≠ doc.top := by
      rintro rfl
      obtain ⟨root, hroot⟩ := hwell.root
      rw [hroot] at hs
      cases hs
    obtain ⟨q, above, hq, hlt, -⟩ := hwell.container j _ hs htop
    obtain rfl := Option.some.inj hq
    exact hlt
  induction ha with
  | parent hp => exact hstep _ _ hp
  | up hp _ ih => exact Nat.lt_trans ih (hstep _ _ hp)

/-- The value of a node is read off the slots at and below it.  They are the slots of the tree under
the handle, and a tree is held where its slots are the same. -/
theorem InShape.value_congr (hd : doc.InShape) (hv : doc.value h = .ok x)
    (hs : ∀ k, k = h ∨ doc.Above h k → doc'.slot? k = doc.slot? k) : doc'.value h = .ok x := by
  obtain ⟨n, hn⟩ := hd
  obtain ⟨s, hslot⟩ := Option.isSome_iff_exists.mp (isSome_slot?_of_value hv)
  obtain ⟨path, c, hc, rfl⟩ := hn.exists_at?_of_slot? hslot
  obtain ⟨p, hp⟩ := hn.holds.at? hc
  have hp' : Holds doc' p c := hp.congr fun k hk => hs k ((hn.mem_handles_iff hc).mp hk)
  rw [value, node_of_holds hp] at hv
  rw [value, node_of_holds hp']
  exact hv

/-! ## What a change leaves alone -/

/-- The handle was issued, and its node has left the document. -/
structure Stale (doc : Document) (h : Nat) : Prop where
  issued : h < doc.slots.size
  empty : doc.slot? h = none

/-- The handles that are `gone` were taken by a change.  The other nodes stay in their containers,
and those that are not `touched` keep their values. -/
structure Leaves (doc doc' : Document) (gone touched : Nat → Prop) : Prop where
  parent : ∀ h p, doc.parent h = .ok p → ¬ gone h → doc'.parent h = .ok p
  stale : ∀ h, (doc.slot? h).isSome → gone h → doc'.Stale h
  value : ∀ h x, doc.value h = .ok x → ¬ gone h → ¬ touched h → doc'.value h = .ok x

/-- A change touches the nodes at and above the slots that it changes.  What is to be shown of a
change is where its slots are: every node from which one of them is reached goes or is touched. -/
theorem InShape.leaves_of_changed (hd : doc.InShape) (changed : Nat → Prop)
    {gone touched : Nat → Prop}
    (hsame : ∀ k, (doc.slot? k).isSome → ¬ changed k → doc'.slot? k = doc.slot? k)
    (hparent : ∀ k p, doc.parent k = .ok p → ¬ gone k → doc'.parent k = .ok p)
    (hgone : ∀ k, (doc.slot? k).isSome → gone k → doc'.Stale k)
    (hreach : ∀ h k, changed k → h = k ∨ doc.Above h k → gone h ∨ touched h) :
    Leaves doc doc' gone touched := by
  refine ⟨hparent, hgone, fun h x hv hg ht => hd.value_congr hv fun k hk => ?_⟩
  have hnot : ¬ changed k := fun hc => (hreach h k hc (hk.imp_left Eq.symm)).elim hg ht
  refine hsame k ?_ hnot
  rcases hk with rfl | ha
  · exact isSome_slot?_of_value hv
  · cases ha with
    | parent hp => exact isSome_slot?_of_parent hp
    | up hp _ => exact isSome_slot?_of_parent hp

end Document

end Expansion
