import Expansion.Proofs.Document.Growth

/-!
  How long handles last.

  A change of a document leaves every handle alone that it has no reason to take: overwriting takes
  the handles below the node, a removal those of the node and below, and everything else stays where
  it is (`InShape.leaves_overwrite`, `InShape.leaves_removeNode`, `InShape.leaves_write`).  Values
  change at the place of the change and above it.  In each case it is enough to name the slots that
  change and to see that they are near the change (`InShape.leaves_of_changed`).

  A handle that is gone does not come back.  Whatever is done to a document comes down to issuing,
  filling and emptying slots (`Later`, `Change.keeps_later`), slots are issued at the end, and a
  slot that is filled was in use; so an empty slot stays empty (`Stale.later`) and reading or
  changing by its handle fails (`Stale.refuses`).  That a document is later than another says
  nothing about its shape, which is why it can be followed through the single steps of a change.
-/

namespace Expansion

namespace Node

variable {key : Key} {path : Path} {n c : Node}

/-- The changed part is under its key. -/
theorem part?_updatePart (h : n.part? key = some c) (f : Node → Node) :
    (n.updatePart key f).part? key = some (f c) := by
  cases n with
  | scalar id s => cases h
  | array id items =>
    cases key with
    | field name => cases h
    | index i =>
      have hi : items[i]? = some c := h
      simp [updatePart, part?, Key.index?, hi]
  | object id fields =>
    cases key with
    | index i => cases h
    | field name =>
      obtain ⟨before, after, rfl, hne⟩ := Fields.split_of_find? h
      show Fields.find? name (Fields.modify name f (before ++ (name, c) :: after)) = some (f c)
      rw [Fields.modify_append_cons hne, Fields.find?_append_cons hne]

/-- The changed node is at the path. -/
theorem at?_updateAt (h : n.at? path = some c) (f : Node → Node) :
    (n.updateAt f path).at? path = some (f c) := by
  induction path generalizing n with
  | nil =>
    obtain rfl : n = c := Option.some.inj h
    rfl
  | cons key rest ih =>
    obtain ⟨k, hk, hc⟩ := Option.bind_eq_some_iff.mp h
    show ((n.updatePart key (updateAt f rest)).part? key).bind (at? rest) = some (f c)
    rw [part?_updatePart hk]
    exact ih hc

end Node

namespace Shape

open Document

variable {doc : Document} {n c : Node} {path : Path} {h j : Nat} {q : Option Nat}

/-! ## The nodes around a node that is filled again -/

/-- A slot in use other than that of the node: empty if it was below the node, and as before if not.
-/
theorem slot?_refill (hn : Shape doc n) (hc : n.at? path = some c) (v : Value)
    (hs : (doc.slot? j).isSome) (hj : j ≠ c.id) :
    (doc.refill c v).slot? j = if j ∈ c.handles then none else doc.slot? j := by
  obtain ⟨p, hp⟩ := hn.holds.at? hc
  obtain ⟨s, hs⟩ := Option.isSome_iff_exists.mp hs
  exact slot?_refill_of_lt hp v hj (lt_size_of_slot? hs)

/-- The node and those that are not below it stay in their containers. -/
theorem parent_refill (hn : Shape doc n) (hc : n.at? path = some c) (v : Value)
    (hq : doc.parent j = .ok q) (hbelow : ¬ doc.Above c.id j) :
    (doc.refill c v).parent j = .ok q := by
  by_cases hj : j = c.id
  · subst hj
    obtain ⟨p, hp⟩ := hn.holds.at? hc
    obtain rfl := Except.ok.inj (hq.symm.trans (parent_of_holds hp))
    have hnew := parent_of_holds (holds_refill hp (hn.nodup_at? hc) v)
    rwa [Node.id_label] at hnew
  · have hout : j ∉ c.handles := fun hin => ((hn.mem_handles_iff hc).mp hin).elim hj hbelow
    obtain ⟨content, hs⟩ := parent_eq_ok_iff.mp hq
    refine parent_eq_ok_iff.mpr ⟨content, ?_⟩
    rw [hn.slot?_refill hc v (isSome_slot?_of_parent hq) hj, if_neg hout, hs]

/-- What is above the node is not below it, so it stays above it. -/
theorem above_refill (hn : Shape doc n) (hc : n.at? path = some c) (v : Value)
    (ha : doc.Above h c.id) : (doc.refill c v).Above h c.id := by
  have hd : doc.InShape := ⟨n, hn⟩
  -- Handles fall from a node to its container, so nothing above the node is below it.
  refine ha.of_kept fun j p hj hp => hn.parent_refill hc v hp fun hbelow => ?_
  have hlt := hd.lt_of_above hbelow
  rcases hj with rfl | hj
  · exact Nat.lt_irrefl _ hlt
  · exact Nat.lt_asymm hlt (hd.lt_of_above hj)

/-- No slot is given back. -/
theorem le_size_refill (hn : Shape doc n) (hc : n.at? path = some c) (v : Value) :
    doc.slots.size ≤ (doc.refill c v).slots.size := by
  obtain ⟨p, hp⟩ := hn.holds.at? hc
  have hsize := (issued_refill hp v).size
  rw [size_vacateAll] at hsize
  show doc.slots.size ≤ ((build c.id v _).2.update c.id _).slots.size
  rw [size_update, hsize]
  exact Nat.le_add_right _ _

end Shape

namespace Document

variable {doc doc' d : Document} {path : Path} {h k w : Nat} {v x : Value}

/-! ## Overwriting and removing -/

/-- Overwriting takes the handles below the node and no other; the node keeps its own. -/
theorem InShape.leaves_overwrite (hd : doc.InShape) (ho : doc.overwrite k v = .ok doc') :
    Leaves doc doc' (doc.Above k) (fun h => h = k ∨ doc'.Above h k) ∧ doc'.value k = .ok v := by
  obtain ⟨n, hn⟩ := id hd
  cases hs : doc.slot k with
  | error e => simp [Document.overwrite, hs, bind, Except.bind] at ho
  | ok s =>
    obtain ⟨path, c, hc, rfl⟩ := hn.exists_at?_of_slot? (slot?_of_slot hs)
    obtain ⟨p, hp⟩ := hn.holds.at? hc
    have hnodup := hn.nodup_at? hc
    obtain rfl := Except.ok.inj ((overwrite_of_holds hp hnodup v).symm.trans ho)
    have hmem : ∀ j, j ∈ c.handles ↔ j = c.id ∨ doc.Above c.id j := fun j => hn.mem_handles_iff hc
    -- The slots that change are those of the tree below the node; each is the node, below it, or
    -- gone.
    refine ⟨hd.leaves_of_changed (fun j => j ∈ c.handles) ?_
      (fun _ _ => hn.parent_refill hc v) ?_ ?_, ?_⟩
    · intro j hj hout
      rw [hn.slot?_refill hc v hj fun e => hout (e ▸ c.id_mem_handles), if_neg hout]
    · intro j hj hbelow
      have hin : j ∈ c.handles := (hmem j).mpr (Or.inr hbelow)
      refine ⟨Nat.lt_of_lt_of_le (hn.lt_size_of_at? hc hin) (hn.le_size_refill hc v), ?_⟩
      rw [hn.slot?_refill hc v hj (Nat.ne_of_gt (hd.lt_of_above hbelow)), if_pos hin]
    · intro h j hin hh
      rcases Above.near ((hmem j).mp hin) hh with (rfl | hbelow) | habove
      · exact Or.inr (Or.inl rfl)
      · exact Or.inl hbelow
      · exact Or.inr (Or.inr (hn.above_refill hc v habove))
    · have hnode := node_of_holds (holds_refill hp hnodup v)
      rw [Node.id_label] at hnode
      rw [Document.value, hnode]
      exact congrArg Except.ok (Node.value_label ..)

/-- An overwritten node stays at its path. -/
theorem InShape.get_overwrite (hd : doc.InShape) (hv : v.Ordered) (hg : doc.get path = .ok k)
    (ho : doc.overwrite k v = .ok doc') : doc'.get path = .ok k := by
  obtain ⟨n, hn⟩ := hd
  obtain ⟨c, hc, rfl⟩ := hn.exists_at?_of_get hg
  obtain ⟨d, hd, hs⟩ := hn.overwrite hc hv
  obtain rfl := Except.ok.inj (hd.symm.trans ho)
  rw [hs.get_of_at? (Node.at?_updateAt hc _), Node.id_label]

/-- Removing a node takes its handle and those below, and no other. -/
theorem InShape.leaves_removeNode (hd : doc.InShape) (hr : doc.removeNode k = .ok (x, doc')) :
    Leaves doc doc' (fun h => h = k ∨ doc.Above k h) fun h => doc.Above h k := by
  obtain ⟨n, hn⟩ := id hd
  cases hs : doc.slot k with
  | error e => simp [Document.removeNode, hs, bind, Except.bind] at hr
  | ok s =>
    obtain ⟨path, c, hc, rfl⟩ := hn.exists_at?_of_slot? (slot?_of_slot hs)
    -- The root is not removed; any other node is the part of a container.
    rcases hn.root_or_part hc with ⟨-, rfl⟩ | ⟨before, key, above, -, habove, hkey, hheld⟩
    · simp only [Document.removeNode, slot_of_holds hn.holds, bind, Except.bind] at hr
      cases hr
    obtain ⟨p, hp⟩ := hn.holds.at? habove
    have hnodup := hn.nodup_at? habove
    obtain ⟨-, rfl⟩ :=
      Prod.mk.inj (Except.ok.inj ((removeNode_of_holds hp hnodup hkey).symm.trans hr))
    have hmem : ∀ j, j ∈ c.handles ↔ j = c.id ∨ doc.Above c.id j := fun j => hn.mem_handles_iff hc
    have hslot := slot?_without hp hnodup hkey
    have hcontainer : doc.Above above.id c.id := .parent (parent_of_holds hheld)
    -- The slots of the part are emptied, and the container forgets the part.
    refine hd.leaves_of_changed (fun j => j ∈ c.handles ∨ above.id = j) ?_ ?_ ?_ ?_
    · intro j _ hout
      rw [hslot j, if_neg fun hin => hout (Or.inl hin), if_neg fun e => hout (Or.inr e)]
    · intro j q hq hgone
      rw [← hmem] at hgone
      rw [parent_eq_ok_iff, hslot j, if_neg hgone]
      by_cases hj : above.id = j
      · subst hj
        obtain rfl := Except.ok.inj (hq.symm.trans (parent_of_holds hp))
        exact ⟨_, if_pos rfl⟩
      · rw [if_neg hj]
        exact parent_eq_ok_iff.mp hq
    · intro j _ hgone
      have hin : j ∈ c.handles := (hmem j).mpr hgone
      refine ⟨?_, by rw [hslot j, if_pos hin]⟩
      rw [without, size_vacateAll, size_update]
      exact hn.lt_size_of_at? hc hin
    · rintro h j (hin | rfl) hh
      · exact Above.near ((hmem j).mp hin) hh
      · rcases hh with rfl | hh
        · exact Or.inr hcontainer
        · exact Or.inr (hh.trans hcontainer)

/-- Removing at a path is removing the node there. -/
theorem exists_removeNode_of_remove (hr : doc.remove path = .ok (x, doc')) :
    ∃ k, doc.get path = .ok k ∧ doc.removeNode k = .ok (x, doc') := by
  rw [Document.remove] at hr
  split at hr
  · cases hr
  · cases hg : doc.get path with
    | error e => simp [hg, bind, Except.bind] at hr
    | ok k =>
      rw [hg] at hr
      exact ⟨k, rfl, hr⟩

/-! ## Writing -/

/-- Writing takes the handles below an overwritten node and no other.  What is written is at the
path, under the handle of the node that was there.  Below an overwritten node it is as for an
overwrite by handle; a write at a new key takes no handle at all, and nothing of the document before
is below the new node. -/
theorem InShape.leaves_write (hd : doc.InShape) (hv : v.Ordered)
    (hw : doc.write path v = .ok (w, doc')) :
    Leaves doc doc' (doc.Above w) (fun h => h = w ∨ doc'.Above h w) ∧
      doc'.get path = .ok w ∧ doc'.value w = .ok v ∧ ∀ k, doc.get path = .ok k → k = w := by
  rcases write_cases hw with ⟨hg, ho⟩ | ⟨before, key, c, rfl, hg, hadded⟩
  · obtain ⟨hleaves, hvalue⟩ := hd.leaves_overwrite ho
    refine ⟨hleaves, hd.get_overwrite hv hg ho, hvalue, fun k hk => ?_⟩
    exact Except.ok.inj (hk.symm.trans hg)
  · have hgrown := hadded.grown
    obtain ⟨t, ht, rfl, rfl⟩ := hadded.held
    have hget : doc'.get (before ++ [key]) = .ok t.id := by
      rw [get_concat, hgrown.get hg]
      exact hadded.step before
    obtain ⟨hparent, -, hvalue⟩ := hd.leaves_of_grown hgrown
    refine ⟨⟨fun h p hp _ => hparent h p hp id, fun h hs ha => ?_, fun h x hx _ ht' => ?_⟩,
      hget, ?_, fun k hk => ?_⟩
    · -- Nothing of the document before is below a new node.
      obtain ⟨s, hs⟩ := Option.isSome_iff_exists.mp hs
      have hlt := hd.lt_of_above ha
      have hsize := lt_size_of_slot? hs
      have hnew := hadded.new
      omega
    · refine hvalue h x hx id ?_
      rintro ⟨k, rfl, hh⟩
      have hcontainer : doc'.Above k t.id := .parent (parent_of_holds ht)
      refine ht' (Or.inr ?_)
      rcases hh with rfl | hh
      · exact hcontainer
      · exact (hh.of_kept fun j p _ hp => hgrown.parent hp).trans hcontainer
    · rw [Document.value, node_of_holds ht]
      rfl
    · exact Except.ok.inj ((hgrown.get hk).symm.trans hget)

/-! ## Handles that are gone -/

/-- What a document can become: slots are issued, filled and emptied. -/
inductive Later (doc : Document) : Document → Prop
  | refl : Later doc doc
  | issue {d : Document} (hd : Later doc d) (parent : Option Nat) : Later doc (d.issue parent)
  | update {d : Document} (hd : Later doc d) (h : Nat) (f : Content → Content) :
    Later doc (d.update h f)
  | vacate {d : Document} (hd : Later doc d) (h : Nat) : Later doc (d.vacate h)

/-- Reading and changing by the handle fail, and nothing changes. -/
structure Refuses (doc : Document) (h : Nat) : Prop where
  kind : doc.kind h = .error (.staleNode h)
  parent : doc.parent h = .error (.staleNode h)
  children : doc.children h = .error (.staleNode h)
  value : doc.value h = .error (.staleNode h)
  pathOf : doc.pathOf h = .error (.staleNode h)
  setNode : ∀ v, (setNode h v doc).value = (.error (.staleNode h), doc)
  deleteNode : (deleteNode h doc).value = (.error (.staleNode h), doc)

namespace Stale

/-- An empty slot stays empty: slots are issued at the end, and filled where they are in use. -/
theorem later (hs : doc.Stale h) (hl : doc.Later d) : d.Stale h := by
  induction hl with
  | refl => exact hs
  | issue _ parent ih =>
    refine ⟨by rw [size_issue]; exact Nat.lt_succ_of_lt ih.issued, ?_⟩
    rw [slot?_issue, if_neg (Nat.ne_of_lt ih.issued), ih.empty]
  | update _ k f ih =>
    refine ⟨by rw [size_update]; exact ih.issued, ?_⟩
    rw [slot?_update, ih.empty]
    split <;> rfl
  | vacate _ k ih =>
    refine ⟨by rw [size_vacate]; exact ih.issued, ?_⟩
    rw [slot?_vacate, ih.empty, ite_self]

/-- A handle of an empty slot is refused by every operation that takes one.  Each of them reads the
slot before it does anything else. -/
theorem refuses (hs : doc.Stale h) : doc.Refuses h := by
  have hslot := slot_of_stale hs.empty
  refine ⟨?_, ?_, ?_, value_of_stale hs.empty, ?_, fun v => ?_, ?_⟩
  · rw [Document.kind, hslot]
    rfl
  · rw [Document.parent, hslot]
    rfl
  · rw [Document.children, hslot]
    rfl
  · rw [Document.pathOf, climb, hslot]
    rfl
  · rw [Document.setNode, value_change, Document.overwrite, hslot]
    rfl
  · rw [Document.deleteNode, value_change, Document.removeNode, hslot]
    rfl

/-- The slots issued next have other handles. -/
theorem ne_alloc (hs : doc.Stale h) (parent : Option Nat) (v : Value) :
    (doc.alloc parent v).1 ≠ h :=
  Nat.ne_of_gt hs.issued

end Stale

namespace Later

mutual

/-- Building a value issues and fills slots. -/
theorem build (owner : Nat) : (v : Value) → {d : Document} → doc.Later d →
    doc.Later (Document.build owner v d).2
  | .scalar _, _, hl => hl
  | .array items, _, hl => buildItems owner items hl
  | .object fields, _, hl => buildFields owner fields hl

/-- Building elements issues and fills slots. -/
theorem buildItems (owner : Nat) : (items : List Value) → {d : Document} → doc.Later d →
    doc.Later (Document.buildItems owner items d).2
  | [], _, hl => hl
  | v :: rest, _, hl => buildItems owner rest (((hl.issue (some owner)).build _ v).update _ _)

/-- Building fields issues and fills slots. -/
theorem buildFields (owner : Nat) : (fields : List (String × Value)) → {d : Document} →
    doc.Later d → doc.Later (Document.buildFields owner fields d).2
  | [], _, hl => hl
  | (_, v) :: rest, _, hl =>
    buildFields owner rest (((hl.issue (some owner)).build _ v).update _ _)

end

/-- Allocating a value issues and fills slots. -/
theorem alloc (hl : doc.Later d) (parent : Option Nat) (v : Value) :
    doc.Later (d.alloc parent v).2 :=
  ((hl.issue parent).build d.slots.size v).update d.slots.size fun _ =>
    (Document.build d.slots.size v (d.issue parent)).1

/-- Releasing nodes empties slots. -/
theorem release (hl : doc.Later d) (handles : List Nat) : doc.Later (d.release handles) := by
  fun_induction Document.release d handles with
  | case1 d => exact hl
  | case2 d h rest hs ih => exact ih hl
  | case3 d h rest s hs ih => exact ih (hl.vacate h)

/-- Overwriting empties slots, then issues and fills others. -/
theorem overwrite (hl : doc.Later d) (ho : d.overwrite k v = .ok doc') : doc.Later doc' := by
  cases hs : d.slot k with
  | error e => simp [Document.overwrite, hs, bind, Except.bind] at ho
  | ok s =>
    simp only [Document.overwrite, hs, bind, Except.bind] at ho
    split at ho
    · cases ho
    · obtain rfl := Except.ok.inj ho
      exact ((hl.release _).build k v).update k _

/-- A write overwrites or allocates. -/
theorem write (hl : doc.Later d) (hw : d.write path v = .ok (w, doc')) : doc.Later doc' := by
  simp only [Document.write, bind, Except.bind] at hw
  cases hp : d.placeAt path with
  | error e => simp [hp] at hw
  | ok answer =>
    obtain ⟨c, place⟩ := answer
    simp only [hp] at hw
    cases place with
    | overwrite k => exact hl.overwrite (map_overwrite_eq_ok_iff.mp hw).2
    | newField name =>
      obtain ⟨-, rfl⟩ := Prod.mk.inj (Except.ok.inj hw)
      exact (hl.alloc (some c) v).update c _
    | newItem padding =>
      obtain ⟨-, rfl⟩ := Prod.mk.inj (Except.ok.inj hw)
      exact ((buildItems c (List.replicate padding .null) hl).alloc (some c) v).update c _

/-- Removing a node fills its container again and empties slots.  The readings that come before can
only make it fail. -/
theorem removeNode (hl : doc.Later d) (hr : d.removeNode k = .ok (x, doc')) : doc.Later doc' := by
  simp only [Document.removeNode, bind, Except.bind] at hr
  split at hr
  · cases hr
  split at hr
  · cases hr
  split at hr
  · cases hr
  split at hr
  · cases hr
  · obtain ⟨-, rfl⟩ := Prod.mk.inj (Except.ok.inj hr)
    exact (hl.update _ _).release _

end Later

open Edit

/-- Changes issue, fill and empty slots, and do nothing else, even where they fail. -/
theorem Change.keeps_later {c : Change} (hc : c.Ordered) : Keeps doc.Later c.apply := by
  have hset : ∀ path v, Keeps doc.Later (Document.set path v) := fun path v =>
    keeps_set fun _ _ _ hl hw => hl.write hw
  cases c with
  | set path v => exact keeps_bind (hset path v) fun _ => keeps_pure ()
  | setNode h v =>
    exact keeps_change fun _ _ _ hl ho => hl.overwrite (map_overwrite_eq_ok_iff.mp ho).2
  | delete path =>
    refine keeps_bind (keeps_change fun d _ d' hl hr => ?_) fun _ => keeps_pure ()
    obtain ⟨k, -, hr⟩ := exists_removeNode_of_remove hr
    exact hl.removeNode hr
  | deleteNode h =>
    exact keeps_bind (keeps_change fun _ _ _ hl hr => hl.removeNode hr) fun _ => keeps_pure ()
  | overlay path source =>
    exact @keeps_overlay _ (fun _ => True) (fun path key v _ _ _ => hset _ v) path source hc
      ((Value.everyKey_iff hc).mpr fun _ _ _ => trivial)

/-- The document after changes, one after the other, failed ones among them. -/
def after (doc : Document) (changes : List Change) : Document :=
  changes.foldl (fun d c => (c.apply d).value.2) doc

/-- Changes one after the other lead to later documents. -/
theorem Later.after (changes : List Change) (hc : ∀ c ∈ changes, c.Ordered)
    (hl : doc.Later d) : doc.Later (d.after changes) := by
  induction changes generalizing d with
  | nil => exact hl
  | cons c rest ih =>
    obtain ⟨hc, hrest⟩ := List.forall_mem_cons.mp hc
    exact ih hrest (Change.keeps_later hc d hl)

/-! ## Handles of reachable documents -/

/-- A handle lasts until its node is removed or a node above it is overwritten or removed, and its
value stays until something is written at or below the node or removed below it.  An overwritten
node keeps its handle and shows the new value.  An overlay takes no handle, and changes the values
of the containers that receive parts and of those above them.  What fails changes nothing.  A
handle that is gone is refused from then on and never issued again. -/
theorem Reachable.handle_lifetime (hr : doc.Reachable) :
    (∀ path v w doc', v.Ordered → (set path v doc).value = (.ok w, doc') →
      Leaves doc doc' (doc.Above w) (fun h => h = w ∨ doc'.Above h w) ∧
        doc'.get path = .ok w ∧ doc'.value w = .ok v ∧ ∀ k, doc.get path = .ok k → k = w) ∧
    (∀ k v doc', (setNode k v doc).value = (.ok (), doc') →
      Leaves doc doc' (doc.Above k) (fun h => h = k ∨ doc'.Above h k) ∧ doc'.value k = .ok v) ∧
    (∀ path x doc', (delete path doc).value = (.ok x, doc') → ∃ k, doc.get path = .ok k ∧
      Leaves doc doc' (fun h => h = k ∨ doc.Above k h) fun h => doc.Above h k) ∧
    (∀ k x doc', (deleteNode k doc).value = (.ok x, doc') →
      Leaves doc doc' (fun h => h = k ∨ doc.Above k h) fun h => doc.Above h k) ∧
    (∀ path source doc', source.Ordered → (overlay path source doc).value = (.ok (), doc') →
      Leaves doc doc' (fun _ => False)
        fun h => ∃ c, doc.Receives path source c ∧ (h = c ∨ doc.Above h c)) ∧
    (∀ (c : Change) e doc', c.Ordered → (c.apply doc).value = (.error e, doc') → doc' = doc) ∧
    ∀ h, doc.Stale h →
      (∀ changes, (∀ c ∈ changes, c.Ordered) →
        (doc.after changes).Refuses h ∧ doc.Later (doc.after changes)) ∧
      ∀ d, doc.Later d → d.Stale h ∧ ∀ parent v, (d.alloc parent v).1 ≠ h := by
  have hd := hr.inShape
  refine ⟨?_, ?_, ?_, ?_, ?_, ?_, fun h hs => ⟨fun changes hc => ?_, fun d hl => ?_⟩⟩
  · intro path v w doc' hv hset
    exact hd.leaves_write hv (value_set_eq_ok_iff.mp hset)
  · intro k v doc' hset
    exact hd.leaves_overwrite (map_overwrite_eq_ok_iff.mp (value_change_eq_ok_iff.mp hset)).2
  · intro path x doc' hdelete
    obtain ⟨k, hg, hrem⟩ := exists_removeNode_of_remove (value_change_eq_ok_iff.mp hdelete)
    exact ⟨k, hg, hd.leaves_removeNode hrem⟩
  · intro k x doc' hdelete
    exact hd.leaves_removeNode (value_change_eq_ok_iff.mp hdelete)
  · intro path source doc' ho hoverlay
    have hgrown := grown_overlay source ho path hd
    rw [hoverlay] at hgrown
    exact hd.leaves_of_grown hgrown
  · intro c e doc' hc hfail
    exact Change.atomic hc doc hd e doc' hfail
  · have hl : doc.Later (doc.after changes) := Later.after changes hc .refl
    exact ⟨(hs.later hl).refuses, hl⟩
  · exact ⟨hs.later hl, (hs.later hl).ne_alloc⟩

/-- A text is written over an array: the node keeps its handle, and the handle of the element is
gone for good. -/
theorem Reachable.handle_lifetime_of_set :
    let doc := Document.ofValue (.object [("a", .array [.null])])
    doc.Reachable ∧ ∃ doc', (set [.field "a"] (.string "x") doc).value = (.ok 1, doc') ∧
      doc'.value 1 = .ok (.string "x") ∧ doc'.parent 1 = .ok (some 0) ∧ doc'.Stale 2 ∧
      ∀ changes, (∀ c ∈ changes, c.Ordered) → (doc'.after changes).Refuses 2 := by
  intro doc
  have ho : (Value.object [("a", .array [.null])]).Ordered :=
    ⟨List.pairwise_singleton _ _, ⟨trivial, trivial⟩, trivial⟩
  have hv : (Value.string "x").Ordered := trivial
  have hr : doc.Reachable := .ofValue ho
  obtain ⟨w, doc', hset, -, -⟩ := (mirrors_set [.field "a"] hv).of_some hr.inShape
    (v := .object [("a", .string "x")]) (by rw [toValue_ofValue ho]; rfl)
  obtain ⟨hleaves, -, hvalue, hkeeps⟩ := hr.handle_lifetime.1 [.field "a"] _ w doc' hv hset
  obtain rfl : 1 = w := hkeeps 1 rfl
  have hafter : doc'.Reachable := by
    have hchanged := hr.change (c := .set [.field "a"] (.string "x")) hv
    rwa [Change.apply, Edit.value_bind, hset] at hchanged
  have hstale : doc'.Stale 2 := hleaves.stale 2 rfl (.parent rfl)
  refine ⟨hr, doc', hset, hvalue, hleaves.parent 1 (some 0) rfl fun ha => ?_, hstale, ?_⟩
  · exact Nat.lt_irrefl 1 (hr.inShape.lt_of_above ha)
  · intro changes hc
    exact ((hafter.handle_lifetime.2.2.2.2.2.2 2 hstale).1 changes hc).1

end Document

end Expansion
