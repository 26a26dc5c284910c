import Expansion.Document.Node
import Expansion.Document.Edit
import Expansion.Proofs.Fields
import Expansion.Value.Path

/-!
  Nodes as labelled trees.

  A document keeps its nodes in slots; the lemmas about documents compare the slots with a tree that
  carries the handles (`Node`).  Here is what they need to know about such trees alone.

  Arrays and objects are treated alike: `content` is what the slot of a node holds, and `kids` are
  the nodes under it.  The handles of a tree are those of the node and of the trees of its kids
  (`handles_eq`), and what passes from the kids to the node holds of every node (`kids_induction`).

  `at?` follows a path down, `updateAt` changes the node at the end of it, and `handles_updateAt`
  says that such a change replaces one run of handles by another and touches no other handle.  Where
  a part is dropped the handles of that part are what is lost (`perm_handles_dropPart`).

  `label` is the tree that a value becomes when slots are issued for it: the handles follow each
  other without a gap in the order in which the parts are met (`handles_label`).
-/

namespace Expansion.Node

/-- What the slot of a node holds. -/
def content : Node → Content
  | scalar _ s => .scalar s
  | array _ items => .array (items.map id)
  | object _ fields => .object (fields.map fun entry => (entry.1, entry.2.id))

/-- The nodes under a node. -/
def kids : Node → List Node
  | scalar _ _ => []
  | array _ items => items
  | object _ fields => fields.map (·.2)

/-- The handles that a slot names are those of the nodes under the node. -/
theorem parts_content (n : Node) : n.content.parts = n.kids.map id := by
  cases n <;> simp [content, kids, Content.parts]

/-- The nodes under a node are smaller: recursion into them ends. -/
theorem sizeOf_lt_of_mem_kids {n c : Node} (h : c ∈ n.kids) : sizeOf c < sizeOf n := by
  cases n with
  | scalar id s => simp [kids] at h
  | array id items =>
    have hlt : sizeOf c < sizeOf items := List.sizeOf_lt_of_mem h
    simp only [array.sizeOf_spec]
    omega
  | object id fields =>
    obtain ⟨entry, hmem, rfl⟩ := List.mem_map.mp h
    obtain ⟨name, c⟩ := entry
    have := List.sizeOf_lt_of_mem hmem
    simp only [Prod.mk.sizeOf_spec] at this
    simp only [object.sizeOf_spec]
    omega

/-- What passes from the nodes under a node to the node holds of every node. -/
theorem kids_induction {P : Node → Prop} (h : ∀ n, (∀ c ∈ n.kids, P c) → P n) (n : Node) : P n :=
  h n fun c _ => kids_induction h c
termination_by sizeOf n
decreasing_by exact sizeOf_lt_of_mem_kids ‹_›

/-! ## Handles -/

mutual

/-- The handles of a node and of all nodes below, a node before its parts. -/
def handles : Node → List Nat
  | scalar id _ => [id]
  | array id items => id :: handlesItems items
  | object id fields => id :: handlesFields fields

/-- The handles in the elements. -/
def handlesItems : List Node → List Nat
  | [] => []
  | n :: rest => n.handles ++ handlesItems rest

/-- The handles in the fields. -/
def handlesFields : List (String × Node) → List Nat
  | [] => []
  | (_, n) :: rest => n.handles ++ handlesFields rest

end

/-- The handles in a row of elements, element by element. -/
theorem handlesItems_eq (items : List Node) : handlesItems items = items.flatMap handles := by
  induction items with
  | nil => rfl
  | cons n rest ih => simp [handlesItems, ih]

/-- The handles in a row of fields, field by field. -/
theorem handlesFields_eq (fields : List (String × Node)) :
    handlesFields fields = (fields.map (·.2)).flatMap handles := by
  induction fields with
  | nil => rfl
  | cons entry rest ih => simp [handlesFields, ih]

/-- The handles of a node, the same for every kind of node: its own, and then those of the nodes
under it. -/
theorem handles_eq (n : Node) : n.handles = n.id :: n.kids.flatMap handles := by
  cases n with
  | scalar id s => rfl
  | array id items => simp [handles, handlesItems_eq, kids, Node.id]
  | object id fields => simp [handles, handlesFields_eq, kids, Node.id]

/-- The handle of a node is one of the handles of its tree. -/
theorem id_mem_handles (n : Node) : n.id ∈ n.handles := by
  rw [handles_eq]
  exact List.mem_cons_self

/-- Trees without a common handle have different roots.  The handle of the root is one of those of
its tree. -/
theorem nodup_ids {ns : List Node} (h : (ns.flatMap handles).Nodup) : (ns.map id).Nodup := by
  induction ns with
  | nil => exact List.nodup_nil
  | cons n rest ih =>
    obtain ⟨-, hr, hd⟩ := List.nodup_append.mp (List.flatMap_cons ▸ h)
    refine List.nodup_cons.mpr ⟨fun hin => ?_, ih hr⟩
    obtain ⟨m, hm, hid⟩ := List.mem_map.mp hin
    exact hd n.id n.id_mem_handles n.id
      (List.mem_flatMap.mpr ⟨m, hm, hid ▸ m.id_mem_handles⟩) rfl

/-- In a tree without repetition the root does not come up again below. -/
theorem notMem_handles_of_mem_kids {n c : Node} (hd : n.handles.Nodup) (hc : c ∈ n.kids) :
    n.id ∉ c.handles := by
  rw [handles_eq] at hd
  exact fun hin => (List.nodup_cons.mp hd).1 (List.mem_flatMap.mpr ⟨c, hc, hin⟩)

/-- The handles below a part are handles of the whole. -/
theorem handles_subset_of_mem_kids {n c : Node} (h : c ∈ n.kids) : c.handles ⊆ n.handles := by
  intro k hk
  rw [handles_eq]
  exact List.mem_cons_of_mem _ (List.mem_flatMap.mpr ⟨c, h, hk⟩)

/-! ## Following a path -/

/-- The part under a key. -/
def part? (key : Key) : Node → Option Node
  | object _ fields => key.name?.bind fun name => Fields.find? name fields
  | array _ items => key.index?.bind fun i => items[i]?
  | scalar _ _ => none

/-- The node at a path. -/
def at? : Path → Node → Option Node
  | [], n => some n
  | key :: rest, n => (n.part? key).bind (at? rest)

/-- A key leads to the same part in a node and in its value. -/
theorem value_part? (key : Key) (n : Node) : (n.part? key).map value = n.value.part? key := by
  cases n with
  | scalar id s => rfl
  | array id items =>
    cases key with
    | field name => rfl
    | index i => simp [part?, value, Value.part?, Key.index?, valueItems_eq_map]
  | object id fields =>
    cases key with
    | field name =>
      simp [part?, value, Value.part?, Key.name?, valueFields_eq_map, Fields.find?_map]
    | index i => rfl

/-- A path leads to the same value in a node and in its value. -/
theorem value_at? (path : Path) (n : Node) : (n.at? path).map value = n.value.get? path := by
  induction path generalizing n with
  | nil => rfl
  | cons key rest ih =>
    show ((n.part? key).bind (at? rest)).map value = (n.value.part? key).bind (Value.get? rest)
    rw [← value_part?]
    cases n.part? key with
    | none => rfl
    | some c => exact ih c

/-- A path in two pieces is followed piece by piece. -/
theorem at?_append (p q : Path) (n : Node) : n.at? (p ++ q) = (n.at? p).bind (at? q) := by
  induction p generalizing n with
  | nil => rfl
  | cons key rest ih =>
    show (n.part? key).bind (at? (rest ++ q)) = ((n.part? key).bind (at? rest)).bind (at? q)
    cases n.part? key with
    | none => rfl
    | some c => exact ih c

/-- What a key leads to is one of the nodes under the node. -/
theorem mem_kids_of_part? {key : Key} {n c : Node} (h : n.part? key = some c) : c ∈ n.kids := by
  cases n with
  | scalar id s => simp [part?] at h
  | array id items =>
    obtain ⟨i, -, hi⟩ := Option.bind_eq_some_iff.mp h
    exact List.mem_of_getElem? hi
  | object id fields =>
    obtain ⟨name, -, hname⟩ := Option.bind_eq_some_iff.mp h
    exact List.mem_map.mpr ⟨(name, c), Fields.mem_of_find? hname, rfl⟩

/-- In an ordered node every part is under some key.  The order rules out a second field of the same
name, which no key would lead to. -/
theorem exists_part?_of_mem_kids {n c : Node} (hn : n.value.Ordered) (hc : c ∈ n.kids) :
    ∃ key, n.part? key = some c := by
  cases n with
  | scalar id s => cases hc
  | array id items =>
    obtain ⟨i, hi⟩ := List.mem_iff_getElem?.mp hc
    exact ⟨.index i, hi⟩
  | object id fields =>
    obtain ⟨⟨name, c⟩, hm, rfl⟩ := List.mem_map.mp hc
    have ho : Fields.Ordered fields := Fields.Ordered.of_names_eq hn.1 (by
      rw [valueFields_eq_map, List.map_map]
      rfl)
    exact ⟨.field name, ho.find?_of_mem hm⟩

/-- The handles below any path are handles of the whole. -/
theorem handles_subset_of_at? {path : Path} {n c : Node} (h : n.at? path = some c) :
    c.handles ⊆ n.handles := by
  induction path generalizing n with
  | nil =>
    obtain rfl : n = c := Option.some.inj h
    exact List.Subset.refl _
  | cons key rest ih =>
    obtain ⟨k, hk, hc⟩ := Option.bind_eq_some_iff.mp h
    exact List.Subset.trans (ih hc) (handles_subset_of_mem_kids (mem_kids_of_part? hk))

/-! ## Changing a node -/

/-- Changes the part under a key, if there is one. -/
def updatePart (key : Key) (f : Node → Node) : Node → Node
  | object id fields =>
    match key with
    | .field name => object id (Fields.modify name f fields)
    | .index _ => object id fields
  | array id items =>
    match key with
    | .index i => array id (items.modify i f)
    | .field _ => array id items
  | scalar id s => scalar id s

/-- Changes the node at a path; a path that does not resolve changes nothing. -/
def updateAt (f : Node → Node) : Path → Node → Node
  | [], n => f n
  | key :: rest, n => n.updatePart key (updateAt f rest)

/-- An element splits the row, and a change to it keeps what is before and after it. -/
theorem split_items {items : List Node} {i : Nat} {c : Node} (h : items[i]? = some c) :
    ∃ before after, items = before ++ c :: after ∧
      ∀ f, items.modify i f = before ++ f c :: after := by
  obtain ⟨hlt, rfl⟩ := List.getElem?_eq_some_iff.mp h
  refine ⟨items.take i, items.drop (i + 1), ?_, ?_⟩
  · rw [List.getElem_cons_drop, List.take_append_drop]
  · intro f
    rw [List.modify_eq_take_cons_drop hlt]

/-- A change under a key replaces one of the nodes under the node; as long as that one keeps its
handle, the slot of the node holds what it held. -/
theorem updatePart_of_part? {key : Key} {n c : Node} (h : n.part? key = some c) :
    ∃ before after, n.kids = before ++ c :: after ∧ ∀ f,
      (n.updatePart key f).id = n.id ∧
      (n.updatePart key f).kids = before ++ f c :: after ∧
      ((f c).id = c.id → (n.updatePart key f).content = n.content) := by
  cases n with
  | scalar id s => simp [part?] at h
  | array id items =>
    cases key with
    | field name => simp [part?, Key.index?] at h
    | index i =>
      obtain ⟨before, after, rfl, hm⟩ := split_items h
      refine ⟨before, after, rfl, fun f => ⟨rfl, hm f, fun hid => ?_⟩⟩
      simp [updatePart, content, hm, hid]
  | object id fields =>
    cases key with
    | index i => simp [part?, Key.name?] at h
    | field name =>
      obtain ⟨before, after, rfl, hne⟩ := Fields.split_of_find? h
      refine ⟨before.map (·.2), after.map (·.2), by simp [kids], fun f => ⟨rfl, ?_, fun hid => ?_⟩⟩
      · simp [updatePart, kids, Fields.modify_append_cons hne]
      · simp [updatePart, content, Fields.modify_append_cons hne, hid]

/-- A change at a path keeps the handle of the root, if it keeps the one at the path. -/
theorem id_updateAt {f : Node → Node} {path : Path} {n c : Node} (h : n.at? path = some c)
    (hid : (f c).id = c.id) : (n.updateAt f path).id = n.id := by
  cases path with
  | nil =>
    obtain rfl : n = c := Option.some.inj h
    exact hid
  | cons key rest =>
    obtain ⟨k, hk, -⟩ := Option.bind_eq_some_iff.mp h
    obtain ⟨_, _, _, hu⟩ := updatePart_of_part? hk
    exact (hu _).1

/-- A change at a path replaces one run of handles by another.  What is before and after the run
does not depend on the change.  So when the node at the path is exchanged, the other handles stay in
their order. -/
theorem handles_updateAt {path : Path} {n c : Node} (h : n.at? path = some c) :
    ∃ before after, n.handles = before ++ c.handles ++ after ∧
      ∀ f, (n.updateAt f path).handles = before ++ (f c).handles ++ after := by
  induction path generalizing n with
  | nil =>
    obtain rfl : n = c := Option.some.inj h
    exact ⟨[], [], by simp, fun f => by simp [updateAt]⟩
  | cons key rest ih =>
    obtain ⟨k, hk, hc⟩ := Option.bind_eq_some_iff.mp h
    obtain ⟨left, right, hkids, hu⟩ := updatePart_of_part? hk
    obtain ⟨before, after, hb, ha⟩ := ih hc
    -- The run before the path grows by the root and the parts on its left, the run after it by
    -- those on its right.
    refine ⟨n.id :: left.flatMap handles ++ before, after ++ right.flatMap handles, ?_, fun f => ?_⟩
    · rw [handles_eq, hkids]
      simp [hb]
    · show (n.updatePart key (updateAt f rest)).handles = _
      rw [handles_eq, (hu _).1, (hu _).2.1]
      simp [ha f]

/-! ## More and fewer parts -/

/-- A field written into the tree is a field written into the slot. -/
theorem content_insert (id : Nat) (name : String) (t : Node) (fields : List (String × Node)) :
    (object id (Fields.insert name t fields)).content
      = (object id fields).content.insertField name t.id :=
  congrArg Content.object (Fields.insert_map Node.id name t fields).symm

/-- Elements put at the end of the tree are elements put at the end of the slot. -/
theorem content_append (id : Nat) (items added : List Node) :
    (array id (items ++ added)).content
      = (array id items).content.appendItems (added.map Node.id) :=
  congrArg Content.array (List.map_append ..)

/-- Writing a field in the value is inserting its tree. -/
theorem place?_insert (id : Nat) (name : String) (t : Node) (fields : List (String × Node)) :
    (object id fields).value.place? (.field name) t.value
      = some (object id (Fields.insert name t fields)).value := by
  simp only [value, Value.place?, Key.name?, Option.map_some, valueFields_eq_map, Fields.insert_map]

/-- Writing beyond the end of an array is appending the nulls that fill the gap, and then the tree.
-/
theorem place?_append (id : Nat) (items nulls : List Node) (t : Node)
    (hn : nulls.map value = List.replicate nulls.length .null) :
    (array id items).value.place? (.index (items.length + nulls.length)) t.value
      = some (array id (items ++ (nulls ++ [t]))).value := by
  have hlt : ¬ items.length + nulls.length < items.length := by omega
  simp [value, Value.place?, Key.index?, valueItems_eq_map, Value.placeItem, hn, hlt]

/-- Drops the part under a key. -/
def dropPart (key : Key) : Node → Node
  | object id fields =>
    match key with
    | .field name => object id (Fields.erase name fields)
    | .index _ => object id fields
  | array id items =>
    match key with
    | .index i => array id (items.eraseIdx i)
    | .field _ => array id items
  | scalar id s => scalar id s

/-- A node keeps its handle when it loses a part. -/
theorem id_dropPart (key : Key) (n : Node) : (n.dropPart key).id = n.id := by
  cases n <;> cases key <;> rfl

/-- Dropping a part leaves the nodes before and after it.  Both kinds of container lose one entry of
their row. -/
theorem kids_dropPart {key : Key} {n c : Node} (h : n.part? key = some c) :
    ∃ before after, n.kids = before ++ c :: after ∧ (n.dropPart key).kids = before ++ after := by
  cases n with
  | scalar id s => simp [part?] at h
  | array id items =>
    cases key with
    | field name => simp [part?, Key.index?] at h
    | index i =>
      obtain ⟨hlt, rfl⟩ := List.getElem?_eq_some_iff.mp h
      refine ⟨items.take i, items.drop (i + 1), ?_, List.eraseIdx_eq_take_drop_succ ..⟩
      rw [List.getElem_cons_drop, List.take_append_drop]
      rfl
  | object id fields =>
    cases key with
    | index i => simp [part?, Key.name?] at h
    | field name =>
      obtain ⟨before, after, rfl, hne⟩ := Fields.split_of_find? h
      refine ⟨before.map (·.2), after.map (·.2), by simp [kids], ?_⟩
      simp [dropPart, kids, Fields.erase_append_cons hne]

/-- The handles of a tree are those left without a part and those of the part. -/
theorem perm_handles_dropPart {key : Key} {n c : Node} (h : n.part? key = some c) :
    List.Perm n.handles ((n.dropPart key).handles ++ c.handles) := by
  obtain ⟨before, after, hkids, hkids'⟩ := kids_dropPart h
  rw [handles_eq n, handles_eq (n.dropPart key), id_dropPart, hkids, hkids', List.flatMap_append,
    List.flatMap_append, List.flatMap_cons, List.cons_append, List.append_assoc]
  exact .cons _ (.append_left _ List.perm_append_comm)

/-- What is under a node after a part is dropped was under it before. -/
theorem mem_kids_of_mem_kids_dropPart {key : Key} {n c d : Node} (h : n.part? key = some c)
    (hd : d ∈ (n.dropPart key).kids) : d ∈ n.kids := by
  obtain ⟨before, after, hkids, hkids'⟩ := kids_dropPart h
  rw [hkids'] at hd
  rw [hkids]
  rcases List.mem_append.mp hd with hd | hd
  · exact List.mem_append_left _ hd
  · exact List.mem_append_right _ (List.mem_cons_of_mem _ hd)

/-- Dropping a part of the tree is dropping the part of the value. -/
theorem drop?_dropPart {key : Key} {n c : Node} (h : n.part? key = some c) :
    n.value.drop? key = some (n.dropPart key).value := by
  cases n with
  | scalar id s => simp [part?] at h
  | array id items =>
    cases key with
    | field name => simp [part?, Key.index?] at h
    | index i =>
      obtain ⟨hlt, -⟩ := List.getElem?_eq_some_iff.mp h
      simp [value, Value.drop?, Key.index?, valueItems_eq_map, hlt, dropPart,
        List.eraseIdx_eq_take_drop_succ, List.map_take, List.map_drop]
  | object id fields =>
    cases key with
    | index i => simp [part?, Key.name?] at h
    | field name =>
      have hf : Fields.find? name fields = some c := h
      simp [value, Value.drop?, Key.name?, valueFields_eq_map, Fields.find?_map, hf, dropPart,
        Fields.erase_map]

/-- Where a mark comes once, filtering it out takes out the one entry that has it. -/
theorem filter_ne_append_cons {α : Type} {f : α → Nat} {before after : List α} {a : α}
    (h : ((before ++ a :: after).map f).Nodup) :
    (before ++ a :: after).filter (fun x => f x ≠ f a) = before ++ after := by
  rw [List.map_append, List.map_cons] at h
  obtain ⟨-, ha, hb⟩ := List.nodup_append.mp h
  obtain ⟨ha, -⟩ := List.nodup_cons.mp ha
  have hbefore : before.filter (fun x => f x ≠ f a) = before :=
    List.filter_eq_self.mpr fun x hx => by
      simpa using hb (f x) (List.mem_map_of_mem hx) (f a) List.mem_cons_self
  have hafter : after.filter (fun x => f x ≠ f a) = after :=
    List.filter_eq_self.mpr fun x hx => by
      have hne : f x ≠ f a := fun e => ha (e ▸ List.mem_map_of_mem hx)
      simpa using hne
  rw [List.filter_append, List.filter_cons, if_neg (by simp), hbefore, hafter]

/-- When no two parts have the same handle, removing the handle from what the slot holds leaves what
the slot holds without the part.  The slot finds the entry by its handle, the tree by its key. -/
theorem content_dropPart {key : Key} {n c : Node} (h : n.part? key = some c)
    (hd : (n.kids.map id).Nodup) : n.content.remove c.id = (n.dropPart key).content := by
  cases n with
  | scalar root s => simp [part?] at h
  | array root items =>
    cases key with
    | field name => simp [part?, Key.index?] at h
    | index i =>
      obtain ⟨hlt, rfl⟩ := List.getElem?_eq_some_iff.mp h
      -- The array is split at the index, so that the handle to remove stands between the others.
      have hsplit : items.map id
          = (items.take i).map id ++ items[i].id :: (items.drop (i + 1)).map id := by
        rw [← List.map_cons, List.getElem_cons_drop, ← List.map_append, List.take_append_drop]
      have hfilter := filter_ne_append_cons (f := fun h : Nat => h)
        (by rw [List.map_id', ← hsplit]; exact hd)
      rw [← hsplit, ← List.map_append, ← List.eraseIdx_eq_take_drop_succ] at hfilter
      exact congrArg Content.array hfilter
  | object root fields =>
    cases key with
    | index i => simp [part?, Key.name?] at h
    | field name =>
      obtain ⟨before, after, rfl, hne⟩ := Fields.split_of_find? h
      have hsplit : (before ++ (name, c) :: after).map (fun entry => (entry.1, entry.2.id))
          = before.map (fun entry => (entry.1, entry.2.id))
            ++ (name, c.id) :: after.map (fun entry => (entry.1, entry.2.id)) := by
        simp
      have hfilter := filter_ne_append_cons (f := fun entry : String × Nat => entry.2)
        (by rw [← hsplit, List.map_map]; rw [kids, List.map_map] at hd; exact hd)
      rw [← hsplit, ← List.map_append, ← Fields.erase_append_cons hne c after] at hfilter
      exact congrArg Content.object hfilter

/-! ## The tree of a value -/

mutual

/-- The tree that a value becomes when its slots are issued: the node itself has the handle `id`,
its parts have the handles from `next` on. -/
def label (id next : Nat) : Value → Node
  | .scalar s => scalar id s
  | .array items => array id (labelItems next items)
  | .object fields => object id (labelFields next fields)

/-- The trees of the elements. -/
def labelItems (next : Nat) : List Value → List Node
  | [] => []
  | v :: rest => label next (next + 1) v :: labelItems (next + v.size) rest

/-- The trees of the fields. -/
def labelFields (next : Nat) : List (String × Value) → List (String × Node)
  | [] => []
  | (name, v) :: rest => (name, label next (next + 1) v) :: labelFields (next + v.size) rest

end

/-- The root of a labelled tree has the handle that it is given. -/
theorem id_label (id next : Nat) (v : Value) : (label id next v).id = id := by
  cases v <;> rfl

mutual

/-- The handles are all that labelling adds. -/
theorem value_label (id next : Nat) : (v : Value) → (label id next v).value = v
  | .scalar _ => rfl
  | .array items => congrArg Value.array (value_labelItems next items)
  | .object fields => congrArg Value.object (value_labelFields next fields)

/-- Labelled elements have the values that they were labelled from. -/
theorem value_labelItems (next : Nat) :
    (items : List Value) → valueItems (labelItems next items) = items
  | [] => rfl
  | v :: rest => by
    show (label next (next + 1) v).value :: valueItems (labelItems _ rest) = v :: rest
    rw [value_label next (next + 1) v, value_labelItems _ rest]

/-- Labelled fields have the values that they were labelled from. -/
theorem value_labelFields (next : Nat) :
    (fields : List (String × Value)) → valueFields (labelFields next fields) = fields
  | [] => rfl
  | (name, v) :: rest => by
    show (name, (label next (next + 1) v).value) :: valueFields (labelFields _ rest)
      = (name, v) :: rest
    rw [value_label next (next + 1) v, value_labelFields _ rest]

end

/-- Labelling keeps the number of elements. -/
theorem length_labelItems (next : Nat) (items : List Value) :
    (labelItems next items).length = items.length := by
  have hvalues := congrArg List.length (value_labelItems next items)
  rwa [valueItems_eq_map, List.length_map] at hvalues

/-- Every value takes at least the slot of its root. -/
theorem one_le_size (v : Value) : 1 ≤ v.size := by
  cases v <;> simp [Value.size]

/-- The handles of a value that follows `next`: that of its root, and then those of its parts. -/
theorem cons_range'_size (next : Nat) (v : Value) :
    next :: List.range' (next + 1) (v.size - 1) = List.range' next v.size := by
  rw [← List.range'_succ, Nat.sub_add_cancel (one_le_size v)]

mutual

/-- Handles are issued in the order in which the parts are met, without a gap. -/
theorem handles_label (id next : Nat) :
    (v : Value) → (label id next v).handles = id :: List.range' next (v.size - 1)
  | .scalar _ => rfl
  | .array items => by
    simp [label, handles, handles_labelItems next items, Value.size]
  | .object fields => by
    simp [label, handles, handles_labelFields next fields, Value.size]

/-- The handles of the elements follow each other, each element going on where the last one has
stopped. -/
theorem handles_labelItems (next : Nat) :
    (items : List Value) →
      handlesItems (labelItems next items) = List.range' next (Value.sizeItems items)
  | [] => rfl
  | v :: rest => by
    rw [labelItems, handlesItems, handles_label, handles_labelItems _ rest, cons_range'_size,
      Value.sizeItems, List.range'_append_1]

/-- The handles of the fields follow each other in the same way. -/
theorem handles_labelFields (next : Nat) :
    (fields : List (String × Value)) →
      handlesFields (labelFields next fields) = List.range' next (Value.sizeFields fields)
  | [] => rfl
  | (name, v) :: rest => by
    rw [labelFields, handlesFields, handles_label, handles_labelFields _ rest, cons_range'_size,
      Value.sizeFields, List.range'_append_1]

end

end Expansion.Node
