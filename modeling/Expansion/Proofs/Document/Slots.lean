import Expansion.Document.Edit
import Expansion.Proofs.Document.Tree

/-!
  Trees in slots.

  `Holds doc parent n` says that the slots of `doc` hold the tree `n` in the container `parent`.
  Whether they do depends on the slots of the tree alone (`Holds.congr`): that is the frame rule by
  which everything outside a change is carried over.

  The three things that happen to slots are described by what they do to trees.

  * A tree that is held is read back (`node_of_holds`).  Reading stops at a number of levels; since
    every part is issued after its container, there are never more levels than slots.
  * Building a value holds its labelled tree in new slots and changes no old one (`build_spec`,
    `Issued`).  Values, elements and fields are gone through together, as they are built.
  * Releasing the root of a tree empties exactly the slots of the tree (`release_of_holds`).
-/

namespace Expansion.Document

/-! ## Single slots -/

/-- A slot in use is one of those that were issued. -/
theorem lt_size_of_slot? {doc : Document} {h : Nat} {slot : Slot} (hs : doc.slot? h = some slot) :
    h < doc.slots.size := by
  obtain ⟨hlt, -⟩ := Array.getElem?_eq_some_iff.mp (Option.join_eq_some_iff.mp hs)
  exact hlt

/-- Issuing a slot adds a null after the last slot and leaves the others. -/
theorem slot?_issue (parent : Option Nat) (doc : Document) (h : Nat) :
    (doc.issue parent).slot? h =
      if h = doc.slots.size then some ⟨parent, .scalar .null⟩ else doc.slot? h := by
  simp only [slot?, issue, Array.getElem?_push]
  split <;> rfl

/-- Updating a slot changes what it holds, not the container that it names. -/
theorem slot?_update (h : Nat) (f : Content → Content) (doc : Document) (k : Nat) :
    (doc.update h f).slot? k =
      if h = k then (doc.slot? k).map fun slot => { slot with content := f slot.content }
      else doc.slot? k := by
  simp only [slot?, update, Array.getElem?_modify]
  split
  · cases doc.slots[k]? <;> rfl
  · rfl

/-- Vacating a slot empties it and leaves the others. -/
theorem slot?_vacate (h : Nat) (doc : Document) (k : Nat) :
    (doc.vacate h).slot? k = if h = k then none else doc.slot? k := by
  simp only [slot?, vacate, Array.getElem?_setIfInBounds]
  split
  · split <;> rfl
  · rfl

/-- There is one slot more. -/
@[simp] theorem size_issue (parent : Option Nat) (doc : Document) :
    (doc.issue parent).slots.size = doc.slots.size + 1 := by
  simp [issue]

/-- An update adds no slot. -/
@[simp] theorem size_update (h : Nat) (f : Content → Content) (doc : Document) :
    (doc.update h f).slots.size = doc.slots.size := by
  simp [update]

/-- A slot that is emptied is still counted: its handle is not issued again. -/
@[simp] theorem size_vacate (h : Nat) (doc : Document) :
    (doc.vacate h).slots.size = doc.slots.size := by
  simp [vacate]

/-! ## Trees that are held -/

/-- The slots hold a tree in the container `parent`, and every part is issued after its
container. -/
inductive Holds (doc : Document) : (parent : Option Nat) → Node → Prop
  | intro {parent : Option Nat} {n : Node} (slot : doc.slot? n.id = some ⟨parent, n.content⟩)
    (after : ∀ p ∈ parent, p < n.id) (kids : ∀ c ∈ n.kids, Holds doc (some n.id) c) :
    Holds doc parent n

namespace Holds

variable {doc doc' : Document} {parent : Option Nat} {n c : Node}

/-- The slot of the node names the container and what the node holds. -/
theorem slot (h : Holds doc parent n) : doc.slot? n.id = some ⟨parent, n.content⟩ := by
  cases h with
  | intro slot _ _ => exact slot

/-- The node is issued after its container. -/
theorem after (h : Holds doc parent n) : ∀ p ∈ parent, p < n.id := by
  cases h with
  | intro _ after _ => exact after

/-- The nodes under the node are held in it. -/
theorem kids (h : Holds doc parent n) : ∀ c ∈ n.kids, Holds doc (some n.id) c := by
  cases h with
  | intro _ _ kids => exact kids

/-- The nodes under the node are issued after it. -/
theorem lt_of_mem_kids (h : Holds doc parent n) (hc : c ∈ n.kids) : n.id < c.id :=
  (h.kids c hc).after n.id rfl

/-- Only the slots of the tree matter.  A change that keeps to other slots keeps the tree. -/
theorem congr (h : Holds doc parent n) (hs : ∀ k ∈ n.handles, doc'.slot? k = doc.slot? k) :
    Holds doc' parent n := by
  induction h with
  | @intro parent n slot after kids ih =>
    refine .intro ?_ after fun c hc => ih c hc fun k hk => ?_
    · rw [hs n.id n.id_mem_handles, slot]
    · exact hs k (Node.handles_subset_of_mem_kids hc hk)

/-- All handles of a tree that is held are in use. -/
theorem isSome_of_mem (h : Holds doc parent n) {k : Nat} (hk : k ∈ n.handles) :
    (doc.slot? k).isSome := by
  induction h with
  | @intro parent n slot after kids ih =>
    rw [Node.handles_eq] at hk
    rcases List.mem_cons.mp hk with rfl | hk
    · rw [slot]; rfl
    · obtain ⟨c, hc, hk⟩ := List.mem_flatMap.mp hk
      exact ih c hc hk

/-- A slot knows one container only. -/
theorem parent_eq {p q : Option Nat} (hp : Holds doc p n) (hq : Holds doc q n) : p = q := by
  have hslot := hp.slot.symm.trans hq.slot
  simpa using hslot

/-- The node at a path is held in the container above it. -/
theorem at? {path : Path} (h : Holds doc parent n) (hc : n.at? path = some c) :
    ∃ p, Holds doc p c := by
  induction path generalizing n parent with
  | nil =>
    obtain rfl : n = c := Option.some.inj hc
    exact ⟨parent, h⟩
  | cons key rest ih =>
    obtain ⟨k, hk, hc⟩ := Option.bind_eq_some_iff.mp hc
    exact ih (h.kids k (Node.mem_kids_of_part? hk)) hc

end Holds

/-! ## Reading -/

/-- When every part is read back, so is the row of elements. -/
theorem mapM_items (items : List Node) {f : Nat → Except DocumentError Node}
    (h : ∀ c ∈ items, f c.id = .ok c) : (items.map Node.id).mapM f = .ok items := by
  induction items with
  | nil => rfl
  | cons c rest ih =>
    rw [List.map_cons, List.mapM_cons, h c List.mem_cons_self,
      ih fun d hd => h d (List.mem_cons_of_mem _ hd)]
    rfl

/-- When every part is read back, so is the row of fields. -/
theorem mapM_fields (fields : List (String × Node)) {f : Nat → Except DocumentError Node}
    (h : ∀ c ∈ fields.map (·.2), f c.id = .ok c) :
    (fields.map fun entry => (entry.1, entry.2.id)).mapM
      (fun entry => do return (entry.1, ← f entry.2)) = .ok fields := by
  induction fields with
  | nil => rfl
  | cons entry rest ih =>
    rw [List.map_cons, List.mapM_cons, ih fun d hd => h d (List.mem_cons_of_mem _ hd)]
    simp only [h entry.2 List.mem_cons_self]
    rfl

/-- As many levels are needed as there are slots from the node on.  Every level down goes to a
greater handle, so they cannot run out. -/
theorem nodeWithin_of_holds {doc : Document} {levels : Nat} {parent : Option Nat} {n : Node}
    (h : Holds doc parent n) (hl : doc.slots.size ≤ levels + n.id) :
    doc.nodeWithin levels n.id = .ok n := by
  induction levels generalizing parent n with
  | zero =>
    have hlt := lt_size_of_slot? h.slot
    omega
  | succ levels ih =>
    have hkids : ∀ c ∈ n.kids, doc.nodeWithin levels c.id = .ok c := by
      intro c hc
      -- A part has a greater handle, so one level less is enough for it.
      have hlt := h.lt_of_mem_kids hc
      exact ih (h.kids c hc) (by omega)
    have hslot : doc.slot n.id = .ok ⟨parent, n.content⟩ := by
      simp [Document.slot, h.slot]
    simp only [nodeWithin, hslot]
    cases n with
    | scalar id s => rfl
    | array id items =>
      show (do return Node.array id (← (items.map Node.id).mapM (doc.nodeWithin levels)) :
        Except DocumentError Node) = _
      rw [mapM_items items hkids]
      rfl
    | object id fields =>
      show (do return Node.object id (← (fields.map fun entry => (entry.1, entry.2.id)).mapM
        fun (entry : String × Nat) => do return (entry.1, ← doc.nodeWithin levels entry.2)) :
        Except DocumentError Node) = _
      rw [mapM_fields fields hkids]
      rfl

/-- What the slots hold is what is read. -/
theorem node_of_holds {doc : Document} {parent : Option Nat} {n : Node} (h : Holds doc parent n) :
    doc.node n.id = .ok n :=
  nodeWithin_of_holds h (Nat.le_add_right _ _)

/-! ## Building -/

/-- More slots are issued and filled, and nothing else changes. -/
structure Issued (doc doc' : Document) (count : Nat) : Prop where
  size : doc'.slots.size = doc.slots.size + count
  live : doc'.live = doc.live + count
  top : doc'.top = doc.top
  old : ∀ h < doc.slots.size, doc'.slot? h = doc.slot? h
  new : ∀ h, doc.slots.size ≤ h → h < doc'.slots.size → (doc'.slot? h).isSome

namespace Issued

/-- Nothing is issued. -/
theorem refl (doc : Document) : Issued doc doc 0 :=
  ⟨rfl, rfl, rfl, fun _ _ => rfl, fun _ hle hlt => absurd hlt (Nat.not_lt.mpr hle)⟩

/-- What is issued in two steps is issued in one. -/
theorem trans {a b c : Document} {m n : Nat} (hab : Issued a b m) (hbc : Issued b c n) :
    Issued a c (m + n) := by
  refine ⟨?_, ?_, hbc.top.trans hab.top, fun h hh => ?_, fun h hle hlt => ?_⟩
  · rw [hbc.size, hab.size, Nat.add_assoc]
  · rw [hbc.live, hab.live, Nat.add_assoc]
  · rw [hbc.old h (by rw [hab.size]; omega), hab.old h hh]
  · by_cases hb : h < b.slots.size
    · rw [hbc.old h hb]
      exact hab.new h hle hb
    · exact hbc.new h (Nat.not_lt.mp hb) hlt

/-- What was held is still held. -/
theorem holds {doc doc' : Document} {count : Nat} (hi : Issued doc doc' count)
    {parent : Option Nat} {n : Node} (h : Holds doc parent n) : Holds doc' parent n := by
  refine h.congr fun k hk => hi.old k ?_
  obtain ⟨slot, hs⟩ := Option.isSome_iff_exists.mp (h.isSome_of_mem hk)
  exact lt_size_of_slot? hs

end Issued

/-- A new slot is filled with what is built for it.  This is the step that values, elements and
fields have in common; what is built for the slot is a hypothesis, which the induction discharges.
-/
theorem allot_spec {parent : Option Nat} {v : Value} {doc : Document}
    (hp : ∀ p ∈ parent, p < doc.slots.size)
    (hb : let doc₁ := doc.issue parent
      let n := Node.label doc.slots.size (doc.slots.size + 1) v
      (build doc.slots.size v doc₁).1 = n.content ∧
        Issued doc₁ (build doc.slots.size v doc₁).2 (v.size - 1) ∧
        ∀ c ∈ n.kids, Holds (build doc.slots.size v doc₁).2 (some doc.slots.size) c) :
    let r := doc.allot parent fun h => build h v
    r.1 = doc.slots.size ∧ Issued doc r.2 v.size ∧
      Holds r.2 parent (Node.label doc.slots.size (doc.slots.size + 1) v) := by
  obtain ⟨hcontent, hissued, hkids⟩ := hb
  have hsize := Node.one_le_size v
  have hnew : (build doc.slots.size v (doc.issue parent)).2.slot? doc.slots.size
      = some ⟨parent, .scalar .null⟩ := by
    rw [hissued.old _ (by simp), slot?_issue, if_pos rfl]
  refine ⟨rfl, ⟨?_, ?_, ?_, fun h hh => ?_, fun h hle hlt => ?_⟩, .intro ?_ ?_ fun c hc => ?_⟩
  · simp only [allot, size_update, hissued.size, size_issue]
    omega
  · show (build doc.slots.size v (doc.issue parent)).2.live = _
    rw [hissued.live]
    show doc.live + 1 + (v.size - 1) = _
    omega
  · exact hissued.top
  · simp only [allot]
    rw [slot?_update, if_neg (by omega), hissued.old h (by simp; omega), slot?_issue,
      if_neg (by omega)]
  · simp only [allot, size_update] at hlt ⊢
    rw [slot?_update]
    split
    · rename_i heq
      rw [← heq, hnew]
      rfl
    · exact hissued.new h (by rw [size_issue]; omega) hlt
  · simp only [allot, Node.id_label]
    rw [slot?_update, if_pos rfl, hnew, hcontent]
    rfl
  · intro p hpar
    rw [Node.id_label]
    exact hp p hpar
  · rw [Node.id_label]
    refine (hkids c hc).congr fun k hk => ?_
    -- The parts have the handles after the new slot, so filling it does not touch them.
    have hmem : k ∈ (Node.label doc.slots.size (doc.slots.size + 1) v).kids.flatMap Node.handles :=
      List.mem_flatMap.mpr ⟨c, hc, hk⟩
    have hhandles := Node.handles_label doc.slots.size (doc.slots.size + 1) v
    rw [Node.handles_eq, Node.id_label] at hhandles
    rw [(List.cons.inj hhandles).2, List.mem_range'_1] at hmem
    simp only [allot]
    rw [slot?_update, if_neg (by omega)]

mutual

/-- Building a value holds its labelled parts in new slots. -/
theorem build_spec (owner : Nat) : (v : Value) → (doc : Document) → owner < doc.slots.size →
    let n := Node.label owner doc.slots.size v
    (build owner v doc).1 = n.content ∧ Issued doc (build owner v doc).2 (v.size - 1) ∧
      ∀ c ∈ n.kids, Holds (build owner v doc).2 (some owner) c
  | .scalar _, doc, _ => ⟨rfl, .refl doc, by simp [Node.label, Node.kids]⟩
  | .array items, doc, ho => by
    obtain ⟨hids, hissued, hkids⟩ := buildItems_spec owner items doc ho
    refine ⟨congrArg Content.array hids, ?_, hkids⟩
    rw [Value.size, Nat.add_sub_cancel_left]
    exact hissued
  | .object fields, doc, ho => by
    obtain ⟨hids, hissued, hkids⟩ := buildFields_spec owner fields doc ho
    refine ⟨congrArg Content.object hids, ?_, hkids⟩
    rw [Value.size, Nat.add_sub_cancel_left]
    exact hissued

/-- Building elements holds their labelled trees, each behind the one before. -/
theorem buildItems_spec (owner : Nat) : (items : List Value) → (doc : Document) →
    owner < doc.slots.size →
    let ns := Node.labelItems doc.slots.size items
    (buildItems owner items doc).1 = ns.map Node.id ∧
      Issued doc (buildItems owner items doc).2 (Value.sizeItems items) ∧
      ∀ c ∈ ns, Holds (buildItems owner items doc).2 (some owner) c
  | [], doc, _ => ⟨rfl, .refl doc, by simp [Node.labelItems]⟩
  | v :: rest, doc, ho => by
    have hb := build_spec doc.slots.size v (doc.issue (some owner)) (by simp)
    rw [size_issue] at hb
    obtain ⟨-, hissued, hheld⟩ := allot_spec (fun p hp => Option.some.inj hp ▸ ho) hb
    have hrest := buildItems_spec owner rest (doc.allot (some owner) fun h => build h v).2
      (by rw [hissued.size]; omega)
    rw [hissued.size] at hrest
    obtain ⟨hids, hissued', hkids⟩ := hrest
    refine ⟨?_, hissued.trans hissued', fun c hc => ?_⟩
    · exact congr (congrArg List.cons (Node.id_label _ _ v).symm) hids
    · rcases List.mem_cons.mp hc with rfl | hc
      · exact hissued'.holds hheld
      · exact hkids c hc

/-- Building fields holds their labelled trees, each behind the one before. -/
theorem buildFields_spec (owner : Nat) : (fields : List (String × Value)) → (doc : Document) →
    owner < doc.slots.size →
    let ns := Node.labelFields doc.slots.size fields
    (buildFields owner fields doc).1 = ns.map (fun entry => (entry.1, entry.2.id)) ∧
      Issued doc (buildFields owner fields doc).2 (Value.sizeFields fields) ∧
      ∀ c ∈ ns.map (·.2), Holds (buildFields owner fields doc).2 (some owner) c
  | [], doc, _ => ⟨rfl, .refl doc, by simp [Node.labelFields]⟩
  | (name, v) :: rest, doc, ho => by
    have hb := build_spec doc.slots.size v (doc.issue (some owner)) (by simp)
    rw [size_issue] at hb
    obtain ⟨-, hissued, hheld⟩ := allot_spec (fun p hp => Option.some.inj hp ▸ ho) hb
    have hrest := buildFields_spec owner rest (doc.allot (some owner) fun h => build h v).2
      (by rw [hissued.size]; omega)
    rw [hissued.size] at hrest
    obtain ⟨hids, hissued', hkids⟩ := hrest
    refine ⟨?_, hissued.trans hissued', fun c hc => ?_⟩
    · exact congr (congrArg (fun h => List.cons (name, h)) (Node.id_label _ _ v).symm) hids
    · rcases List.mem_cons.mp hc with rfl | hc
      · exact hissued'.holds hheld
      · exact hkids c hc

end

/-- A value that is allocated is held as its labelled tree.  The handles of the tree are the ones
from the next free slot on, in the order in which they are issued. -/
theorem alloc_spec (parent : Option Nat) (v : Value) (doc : Document)
    (hp : ∀ p ∈ parent, p < doc.slots.size) :
    (alloc parent v doc).1 = doc.slots.size ∧ Issued doc (alloc parent v doc).2 v.size ∧
      Holds (alloc parent v doc).2 parent
        (Node.label doc.slots.size (doc.slots.size + 1) v) := by
  refine allot_spec hp ?_
  have hb := build_spec doc.slots.size v (doc.issue parent) (by simp)
  rw [size_issue] at hb
  exact hb

/-! ## Releasing -/

/-- Empties slots one after the other. -/
def vacateAll (handles : List Nat) (doc : Document) : Document :=
  handles.foldl (fun doc h => doc.vacate h) doc

/-- The slots that are named are emptied and no other. -/
theorem slot?_vacateAll (handles : List Nat) (doc : Document) (k : Nat) :
    (doc.vacateAll handles).slot? k = if k ∈ handles then none else doc.slot? k := by
  induction handles generalizing doc with
  | nil => simp [vacateAll]
  | cons h rest ih =>
    show ((doc.vacate h).vacateAll rest).slot? k = _
    rw [ih, slot?_vacate]
    by_cases hk : h = k
    · simp [hk]
    · simp [hk, Ne.symm hk]

/-- Emptied slots are still counted. -/
@[simp] theorem size_vacateAll (handles : List Nat) (doc : Document) :
    (doc.vacateAll handles).slots.size = doc.slots.size := by
  induction handles generalizing doc with
  | nil => rfl
  | cons h rest ih => exact (ih (doc.vacate h)).trans (size_vacate h doc)

/-- The root handle does not change. -/
@[simp] theorem top_vacateAll (handles : List Nat) (doc : Document) :
    (doc.vacateAll handles).top = doc.top := by
  induction handles generalizing doc with
  | nil => rfl
  | cons h rest ih => exact ih (doc.vacate h)

/-- Every slot that is emptied is taken off the count of live nodes. -/
theorem live_vacateAll (handles : List Nat) (doc : Document) :
    (doc.vacateAll handles).live = doc.live - handles.length := by
  induction handles generalizing doc with
  | nil => rfl
  | cons h rest ih =>
    refine (ih (doc.vacate h)).trans ?_
    show doc.live - 1 - rest.length = doc.live - (rest.length + 1)
    omega

/-- With nothing left to release, the document is as it is. -/
theorem release_nil (doc : Document) : doc.release [] = doc := by
  rw [release]

/-- A slot in use is emptied, and its parts come next. -/
theorem release_cons_of_slot? {doc : Document} {h : Nat} {slot : Slot}
    (hs : doc.slot? h = some slot) (rest : List Nat) :
    doc.release (h :: rest) = (doc.vacate h).release (slot.content.parts ++ rest) := by
  rw [release]
  split
  · rename_i hnone
    rw [hs] at hnone
    contradiction
  · rename_i other hsome
    obtain rfl : slot = other := Option.some.inj (hs.symm.trans hsome)
    rfl

/-- Releasing trees that share no handle empties their slots and no other.  The induction is on the
number of handles, since the parts of a tree join the trees still to be released. -/
theorem release_of_holds {doc : Document} {ns : List Node} (rest : List Nat)
    (hh : ∀ n ∈ ns, ∃ p, Holds doc p n) (hd : (ns.flatMap Node.handles).Nodup) :
    doc.release (ns.map Node.id ++ rest)
      = (doc.vacateAll (ns.flatMap Node.handles)).release rest := by
  induction hk : (ns.flatMap Node.handles).length using Nat.strongRecOn generalizing ns doc with
  | ind k ih =>
    cases ns with
    | nil => rfl
    | cons n ns =>
      obtain ⟨p, hn⟩ := hh n List.mem_cons_self
      have hparts : n.content.parts ++ (ns.map Node.id ++ rest)
          = (n.kids ++ ns).map Node.id ++ rest := by
        rw [Node.parts_content, List.map_append, List.append_assoc]
      have hflat : (n :: ns).flatMap Node.handles
          = n.id :: (n.kids ++ ns).flatMap Node.handles := by
        rw [List.flatMap_cons, Node.handles_eq, List.flatMap_append, List.cons_append]
      rw [hflat] at hd hk
      obtain ⟨hnot, hd'⟩ := List.nodup_cons.mp hd
      -- The parts are still held once the root is empty, since its handle is not among theirs.
      have hh' : ∀ c ∈ n.kids ++ ns, ∃ p, Holds (doc.vacate n.id) p c := by
        intro c hc
        obtain ⟨q, hq⟩ : ∃ q, Holds doc q c := by
          rcases List.mem_append.mp hc with hc | hc
          · exact ⟨_, hn.kids c hc⟩
          · exact hh c (List.mem_cons_of_mem _ hc)
        refine ⟨q, hq.congr fun j hj => ?_⟩
        rw [slot?_vacate, if_neg]
        rintro rfl
        exact hnot (List.mem_flatMap.mpr ⟨c, hc, hj⟩)
      rw [List.map_cons, List.cons_append, release_cons_of_slot? hn.slot, hparts, hflat]
      exact ih _ (by rw [← hk]; exact Nat.lt_succ_self _) hh' hd' rfl

end Expansion.Document
