import Expansion.Proofs.Document.Changes
import Expansion.Proofs.Document.Sequence

/-!
  Documents behave as their values.

  In shape, a document answers a path as its value does (`Shape.toOption_get`,
  `Shape.toOption_getValue`), and a change by path succeeds exactly when the same change of the
  value does and leaves a document of the changed value (`Shape.write`, `Shape.remove`).  A handle
  in use is the handle at some path, so changes by handle are changes by path.

  Documents are reachable when they are made of a value by any changes, failed ones among them; all
  of them are in shape (`Reachable.inShape`), which makes the laws hold of them
  (`Reachable.behaves_as_value`).  Most lemmas elsewhere ask for `InShape` only, so they do not
  depend on which changes there are.
-/

namespace Expansion

namespace Document

/-! ## Reading by path -/

/-- The slot of a node that is held is found. -/
theorem slot_of_holds {doc : Document} {parent : Option Nat} {n : Node} (h : Holds doc parent n) :
    doc.slot n.id = .ok ⟨parent, n.content⟩ := by
  simp [slot, h.slot]

/-- A step goes to the handle of the part under the key, if there is one.  What the error of a
failing step says is left to the lemmas about refusals; here it only counts that the step fails. -/
theorem step_of_holds {doc : Document} {parent : Option Nat} {n : Node} (h : Holds doc parent n)
    (before : Path) (key : Key) :
    (doc.step before key n.id).toOption = (n.part? key).map Node.id := by
  simp only [step, slot_of_holds h, bind, Except.bind]
  cases n with
  | scalar id s => rfl
  | array id items =>
    cases key with
    | field name => rfl
    | index i =>
      simp only [Node.content, Node.part?, Key.index?, Option.bind_some, List.getElem?_map]
      cases items[i]? <;> rfl
  | object id fields =>
    cases key with
    | index i => rfl
    | field name =>
      simp only [Node.content, Node.part?, Key.name?, Option.bind_some, Fields.find?_map]
      cases Fields.find? name fields <;> rfl

/-- A path leads to the handle of the node at the path, if there is one.  The induction is on the
path, since the parts of a tree that is held are held themselves. -/
theorem follow_of_holds {doc : Document} {parent : Option Nat} {n : Node} (h : Holds doc parent n)
    (before path : Path) :
    (doc.follow before path n.id).toOption = (n.at? path).map Node.id := by
  induction path generalizing before parent n with
  | nil => rfl
  | cons key rest ih =>
    have hs := step_of_holds h before key
    simp only [follow, Node.at?, bind, Except.bind]
    cases hc : n.part? key with
    | none =>
      rw [hc] at hs
      cases hstep : doc.step before key n.id with
      | error e => rfl
      | ok k => simp [hstep, Except.toOption] at hs
    | some c =>
      rw [hc] at hs
      cases hstep : doc.step before key n.id with
      | error e => simp [hstep, Except.toOption] at hs
      | ok k =>
        obtain rfl : k = c.id := by simpa [hstep, Except.toOption] using hs
        exact ih (h.kids c (Node.mem_kids_of_part? hc)) (before ++ [key])

end Document

namespace Shape

variable {doc : Document} {n c : Node} {path : Path}

/-- A path leads to the handle of the node there, and fails where there is none. -/
theorem toOption_get (h : Shape doc n) (path : Path) :
    (doc.get path).toOption = (n.at? path).map Node.id := by
  rw [Document.get, ← h.top]
  exact Document.follow_of_holds h.holds [] path

/-- Where there is a node, the path leads to its handle. -/
theorem get_of_at? (h : Shape doc n) (hc : n.at? path = some c) : doc.get path = .ok c.id := by
  have hg := h.toOption_get path
  rw [hc] at hg
  cases hget : doc.get path with
  | error e => simp [hget, Except.toOption] at hg
  | ok k =>
    obtain rfl : k = c.id := by simpa [hget, Except.toOption] using hg
    rfl

/-- Where there is no node, the path fails. -/
theorem get_of_at?_none (h : Shape doc n) (hc : n.at? path = none) :
    ∃ e, doc.get path = .error e := by
  have hg := h.toOption_get path
  rw [hc] at hg
  cases hget : doc.get path with
  | error e => exact ⟨e, rfl⟩
  | ok k => simp [hget, Except.toOption] at hg

/-- What a path leads to is the node at the path. -/
theorem exists_at?_of_get (h : Shape doc n) {k : Nat} (hg : doc.get path = .ok k) :
    ∃ c, n.at? path = some c ∧ c.id = k := by
  have ho := h.toOption_get path
  rw [hg] at ho
  exact Option.map_eq_some_iff.mp ho.symm

/-- The node at a path is read back from its handle. -/
theorem node_of_at? (h : Shape doc n) (hc : n.at? path = some c) : doc.node c.id = .ok c := by
  obtain ⟨p, hp⟩ := h.holds.at? hc
  exact Document.node_of_holds hp

/-- Reading a document at a path is reading its value there. -/
theorem toOption_getValue (h : Shape doc n) (path : Path) :
    (doc.getValue path).toOption = n.value.get? path := by
  rw [← Node.value_at?]
  simp only [Document.getValue, bind, Except.bind]
  cases hc : n.at? path with
  | none =>
    obtain ⟨e, he⟩ := h.get_of_at?_none hc
    rw [he]
    rfl
  | some c =>
    rw [h.get_of_at? hc]
    simp only [Document.value, h.node_of_at? hc, Except.map]
    rfl

/-! ## Changes by path -/

/-- What a single change does to a document, when it does to the value what is said by `changed`:
it succeeds when that is something, and then the document has the changed value. -/
def Follows {α : Type} (changed : Option Value) (result : Except DocumentError (α × Document)) :
    Prop :=
  match result with
  | .ok (_, doc') => ∃ n', Shape doc' n' ∧ changed = some n'.value
  | .error _ => changed = none

/-- The value at a path is that of the node there. -/
theorem value_get?_of_at? (hc : n.at? path = some c) : n.value.get? path = some c.value := by
  rw [← Node.value_at?, hc]
  rfl

/-- Changing the container of a path is writing the changed container. -/
theorem write?_container (h : Shape doc n) (hc : n.at? path = some c) {key : Key} {v : Value}
    {f : Node → Node} (hp : c.value.place? key v = some (f c).value) :
    n.value.write? (path ++ [key]) v = some (n.updateAt f path).value := by
  rw [Value.write?_concat, value_get?_of_at? hc, Option.bind_some, hp, Option.bind_some]
  exact Node.write?_updateAt h.ordered hc

/-- The node under the last key of a path. -/
theorem at?_concat (hc : n.at? path = some c) (key : Key) :
    n.at? (path ++ [key]) = c.part? key := by
  rw [Node.at?_append, hc, Option.bind_some]
  show (c.part? key).bind some = c.part? key
  cases c.part? key <;> rfl

/-- A write below a container finds the place for the key first. -/
theorem write_concat (h : Shape doc n) (hc : n.at? path = some c) (key : Key) (v : Value) :
    doc.write (path ++ [key]) v
      = (doc.place path key c.id).bind fun place => doc.writeAt c.id v place := by
  simp only [Document.write, Document.placeAt, List.getLast?_concat, List.dropLast_concat,
    h.get_of_at? hc, bind, Except.bind]
  cases doc.place path key c.id <;> rfl

/-- Overwriting the node at a path is writing there. -/
theorem overwrite_follows (h : Shape doc n) (hc : n.at? path = some c) {v : Value}
    (hv : v.Ordered) :
    Follows (n.value.write? path v) ((doc.overwrite c.id v).map fun doc' => (c.id, doc')) := by
  obtain ⟨doc', ho, hs⟩ := h.overwrite hc hv
  rw [ho]
  refine ⟨_, hs, ?_⟩
  have hw := Node.write?_updateAt (f := fun _ => Node.label c.id doc.slots.size v) h.ordered hc
  rwa [Node.value_label] at hw

/-- A write by path does to the document what it does to the value.  Both are a write in the
container above: the document looks for a place there, the value takes the part under the key.  The
two agree on which keys a container takes, and what is found in the place is replaced while a new
part is added. -/
theorem write (h : Shape doc n) (path : Path) {v : Value} (hv : v.Ordered) :
    Follows (n.value.write? path v) (doc.write path v) := by
  rcases List.eq_nil_or_concat path with rfl | ⟨p, key, rfl⟩
  · have hroot : n.at? [] = some n := rfl
    have hw := h.overwrite_follows hroot hv
    rw [h.top] at hw
    exact hw
  rw [List.concat_eq_append]
  cases hc : n.at? p with
  | none =>
    obtain ⟨e, he⟩ := h.get_of_at?_none hc
    have hg : n.value.get? p = none := by rw [← Node.value_at?, hc]; rfl
    have hw : doc.write (p ++ [key]) v = .error e := by
      simp [Document.write, Document.placeAt, he, bind, Except.bind]
    rw [hw, Value.write?_concat, hg]
    rfl
  | some c =>
    obtain ⟨parent, hp⟩ := h.holds.at? hc
    have hw := h.write_concat hc key v
    have hnone : c.value.place? key v = none → n.value.write? (p ++ [key]) v = none := by
      intro hn
      rw [Value.write?_concat, value_get?_of_at? hc, Option.bind_some, hn]
      rfl
    rw [hw]
    simp only [Document.place, Document.slot_of_holds hp, bind, Except.bind]
    -- What is placed depends on the kind of the container and on the key.
    cases c with
    | scalar id s =>
      simp only [Node.content]
      cases doc.step p key (Node.scalar id s).id <;> exact hnone rfl
    | array id items =>
      cases key with
      | field name =>
        simp only [Node.content]
        cases doc.step p (.field name) (Node.array id items).id <;> exact hnone rfl
      | index i =>
        simp only [Node.content, List.getElem?_map, List.length_map]
        cases hi : items[i]? with
        | some k =>
          have hk : n.at? (p ++ [.index i]) = some k := (at?_concat hc _).trans hi
          exact h.overwrite_follows hk hv
        | none =>
          have hs := h.newItem (i - items.length) hc hv
          refine ⟨_, hs, h.write?_container hc ?_⟩
          have hplace := place?_newItem id doc.slots.size (i - items.length) items
            (Node.label (doc.slots.size + (i - items.length))
              (doc.slots.size + (i - items.length) + 1) v)
          have hle : items.length ≤ i := List.getElem?_eq_none_iff.mp hi
          rwa [Node.value_label, Nat.add_sub_cancel' hle] at hplace
    | object id fields =>
      cases key with
      | index i =>
        simp only [Node.content]
        cases doc.step p (.index i) (Node.object id fields).id <;> exact hnone rfl
      | field name =>
        simp only [Node.content, Fields.find?_map]
        cases hf : Fields.find? name fields with
        | some k =>
          have hk : n.at? (p ++ [.field name]) = some k := (at?_concat hc _).trans hf
          exact h.overwrite_follows hk hv
        | none =>
          have hs := h.newField hc hf hv
          refine ⟨_, hs, h.write?_container hc ?_⟩
          have hplace := Node.place?_insert id name
            (Node.label doc.slots.size (doc.slots.size + 1) v) fields
          rwa [Node.value_label] at hplace

/-- Removing the part of a node at a path is removing at the path to it.  The document has to find
the container from the node, the value finds it from the path; it is the same one. -/
theorem removeNode_follows (h : Shape doc n) (hc : n.at? path = some c) :
    Follows (n.value.remove? path) (doc.removeNode c.id) := by
  rcases List.eq_nil_or_concat path with rfl | ⟨p, key, rfl⟩
  · -- The root is in no container, and removing it is refused.
    obtain rfl : n = c := Option.some.inj hc
    have hroot : doc.removeNode n.id = .error .rootDelete := by
      simp only [Document.removeNode, Document.slot_of_holds h.holds, bind, Except.bind]
      rfl
    rw [hroot]
    rfl
  · rw [List.concat_eq_append] at hc ⊢
    rw [Node.at?_append] at hc
    obtain ⟨d, hd, hc⟩ := Option.bind_eq_some_iff.mp hc
    have hk : d.part? key = some c := by
      rw [← at?_concat hd key, Node.at?_append, hd]
      exact hc
    obtain ⟨doc', hr, hs⟩ := h.removeNode hd hk
    rw [hr]
    refine ⟨_, hs, ?_⟩
    rw [Value.remove?_concat, value_get?_of_at? hd, Option.bind_some, Node.drop?_dropPart hk,
      Option.bind_some]
    exact Node.write?_updateAt h.ordered hd

/-- A removal by path does to the document what it does to the value. -/
theorem remove (h : Shape doc n) (path : Path) :
    Follows (n.value.remove? path) (doc.remove path) := by
  by_cases hp : path = []
  · subst hp
    rfl
  have hne : path.isEmpty = false := by simpa using hp
  simp only [Document.remove, hne, Bool.false_eq_true, if_false, bind, Except.bind]
  cases hc : n.at? path with
  | none =>
    obtain ⟨e, he⟩ := h.get_of_at?_none hc
    rw [he]
    exact Value.remove?_of_get?_none (by rw [← Node.value_at?, hc]; rfl)
  | some c =>
    rw [h.get_of_at? hc]
    exact h.removeNode_follows hc

/-- What is removed is the value at the path. -/
theorem value_of_remove (h : Shape doc n) {w : Value} {doc' : Document}
    (hr : doc.remove path = .ok (w, doc')) : n.value.get? path = some w := by
  by_cases hp : path = []
  · subst hp
    contradiction
  have hne : path.isEmpty = false := by simpa using hp
  simp only [Document.remove, hne, Bool.false_eq_true, if_false, bind, Except.bind] at hr
  cases hc : n.at? path with
  | none =>
    obtain ⟨e, he⟩ := h.get_of_at?_none hc
    simp [he] at hr
  | some c =>
    rw [value_get?_of_at? hc]
    simp only [h.get_of_at? hc, Document.removeNode, Document.value, h.node_of_at? hc, bind,
      Except.bind, Except.map] at hr
    split at hr
    · contradiction
    split at hr
    · contradiction
    split at hr
    · contradiction
    · obtain ⟨rfl, -⟩ := Prod.mk.inj (Except.ok.inj hr)
      rfl

/-! ## Changes by handle -/

/-- Every handle of an ordered tree is at some path, by induction on the tree.  The order is needed,
for in an object with one name twice the second field would be at no path. -/
theorem exists_at?_of_mem_handles {k : Nat} (hn : n.value.Ordered) (hk : k ∈ n.handles) :
    ∃ path c, n.at? path = some c ∧ c.id = k := by
  induction n using Node.kids_induction with
  | h n ih =>
    rw [Node.handles_eq] at hk
    rcases List.mem_cons.mp hk with rfl | hk
    · exact ⟨[], n, rfl, rfl⟩
    · obtain ⟨d, hd, hk⟩ := List.mem_flatMap.mp hk
      obtain ⟨key, hkey⟩ := Node.exists_part?_of_mem_kids hn hd
      have hdv : n.value.part? key = some d.value := by rw [← Node.value_part?, hkey]; rfl
      obtain ⟨path, c, hc, hid⟩ := ih d hd (hn.part? hdv) hk
      exact ⟨key :: path, c, by rw [Node.at?, hkey]; exact hc, hid⟩

/-- A handle in use is the handle of the node at some path. -/
theorem exists_at?_of_slot? (h : Shape doc n) {k : Nat} {slot : Slot}
    (hk : doc.slot? k = some slot) : ∃ path c, n.at? path = some c ∧ c.id = k :=
  exists_at?_of_mem_handles h.ordered (h.covers k (by simp [hk]))

end Shape

/-! ## Reachable documents -/

namespace Document

/-- The slots of a document hold some tree. -/
def InShape (doc : Document) : Prop := ∃ n, Shape doc n

variable {doc doc' : Document} {path : Path} {v w : Value} {k : Nat}

/-- The value of a document is in order. -/
theorem InShape.ordered (h : doc.InShape) : doc.toValue.Ordered := by
  obtain ⟨n, hn⟩ := h
  rw [hn.toValue_eq]
  exact hn.ordered

/-- A write that succeeds leaves a document in shape, with the written value. -/
theorem InShape.write (h : doc.InShape) (hv : v.Ordered) (hw : doc.write path v = .ok (k, doc')) :
    doc'.InShape ∧ doc.toValue.write? path v = some doc'.toValue := by
  obtain ⟨n, hn⟩ := h
  have hf := hn.write path hv
  rw [hw] at hf
  obtain ⟨n', hs, hc⟩ := hf
  exact ⟨⟨n', hs⟩, by rw [hn.toValue_eq, hs.toValue_eq, hc]⟩

/-- A removal that succeeds leaves a document in shape, and what it answers was there. -/
theorem InShape.remove (h : doc.InShape) (hr : doc.remove path = .ok (w, doc')) :
    doc'.InShape ∧ doc.toValue.get? path = some w ∧
      doc.toValue.remove? path = some doc'.toValue := by
  obtain ⟨n, hn⟩ := h
  have hf := hn.remove path
  have hg := hn.value_of_remove hr
  rw [hr] at hf
  obtain ⟨n', hs, hc⟩ := hf
  exact ⟨⟨n', hs⟩, by rw [hn.toValue_eq, hg], by rw [hn.toValue_eq, hs.toValue_eq, hc]⟩

/-- A slot that is found is in use. -/
theorem slot?_of_slot {slot : Slot} (h : doc.slot k = .ok slot) : doc.slot? k = some slot := by
  unfold Document.slot at h
  split at h
  · obtain rfl := Except.ok.inj h
    assumption
  · contradiction

/-- Overwriting by handle keeps the shape. -/
theorem InShape.overwrite (h : doc.InShape) (hv : v.Ordered) (ho : doc.overwrite k v = .ok doc') :
    doc'.InShape := by
  obtain ⟨n, hn⟩ := h
  cases hs : doc.slot k with
  | error e => simp [Document.overwrite, hs, bind, Except.bind] at ho
  | ok slot =>
    obtain ⟨path, c, hc, rfl⟩ := hn.exists_at?_of_slot? (slot?_of_slot hs)
    have hf := hn.overwrite_follows hc hv
    rw [ho] at hf
    obtain ⟨n', hn', -⟩ := hf
    exact ⟨n', hn'⟩

/-- Removing by handle keeps the shape. -/
theorem InShape.removeNode (h : doc.InShape) (hr : doc.removeNode k = .ok (w, doc')) :
    doc'.InShape := by
  obtain ⟨n, hn⟩ := h
  cases hs : doc.slot k with
  | error e => simp [Document.removeNode, hs, bind, Except.bind] at hr
  | ok slot =>
    obtain ⟨path, c, hc, rfl⟩ := hn.exists_at?_of_slot? (slot?_of_slot hs)
    have hf := hn.removeNode_follows hc
    rw [hr] at hf
    obtain ⟨n', hn', -⟩ := hf
    exact ⟨n', hn'⟩

open Edit

/-- Writes keep the shape. -/
theorem keeps_inShape_set (path : Path) (hv : v.Ordered) : Keeps InShape (set path v) :=
  keeps_set fun _ _ _ h hw => (h.write hv hw).1

/-- Overlays keep the shape, since all that they do is write. -/
theorem keeps_inShape_overlay (path : Path) {source : Value} (hs : source.Ordered) :
    Keeps InShape (overlay path source) :=
  @keeps_overlay _ (fun _ => True) (fun _ _ _ _ hv _ => keeps_inShape_set _ hv) path source hs
    ((Value.everyKey_iff hs).mpr fun _ _ _ => trivial)

/-- A change that a caller can ask for. -/
inductive Change
  | set (path : Path) (v : Value)
  | setNode (h : Nat) (v : Value)
  | delete (path : Path)
  | deleteNode (h : Nat)
  | overlay (path : Path) (source : Value)

namespace Change

/-- What the change brings into the document is in order. -/
def Ordered : Change → Prop
  | set _ v => v.Ordered
  | setNode _ v => v.Ordered
  | delete _ => True
  | deleteNode _ => True
  | overlay _ source => source.Ordered

/-- Makes the change; the answer is dropped. -/
def apply : Change → Edit DocumentError Unit
  | set path v => do let _ ← Document.set path v
  | setNode h v => Document.setNode h v
  | delete path => do let _ ← Document.delete path
  | deleteNode h => do let _ ← Document.deleteNode h
  | overlay path source => Document.overlay path source

/-- No change leaves the shape of documents, even where it fails. -/
theorem keeps_inShape {c : Change} (hc : c.Ordered) : Keeps InShape c.apply := by
  cases c with
  | set path v => exact keeps_bind (keeps_inShape_set path hc) fun _ => keeps_pure ()
  | setNode h v =>
    refine keeps_change fun doc _ doc' hs ho => ?_
    cases hov : doc.overwrite h v with
    | error e => simp [hov, Except.map] at ho
    | ok d =>
      obtain rfl : d = doc' := by simpa [hov, Except.map] using ho
      exact hs.overwrite hc hov
  | delete path =>
    exact keeps_bind (keeps_change fun _ _ _ hs hr => (hs.remove hr).1) fun _ => keeps_pure ()
  | deleteNode h =>
    exact keeps_bind (keeps_change fun _ _ _ hs hr => hs.removeNode hr) fun _ => keeps_pure ()
  | overlay path source => exact keeps_inShape_overlay path hc

end Change

/-- Documents that are made of a value by changes, failed ones among them. -/
inductive Reachable : Document → Prop
  | ofValue {v : Value} (h : v.Ordered) : Reachable (ofValue v)
  | change {doc : Document} (h : Reachable doc) {c : Change} (hc : c.Ordered) :
    Reachable (c.apply doc).value.2

/-- A document made of a value has that value. -/
theorem toValue_ofValue (hv : v.Ordered) : (ofValue v).toValue = v := by
  rw [(Shape.ofValue hv).toValue_eq, Node.value_label]

/-- Every reachable document is in shape. -/
theorem Reachable.inShape (h : doc.Reachable) : doc.InShape := by
  induction h with
  | ofValue hv => exact ⟨_, Shape.ofValue hv⟩
  | change _ hc ih => exact Change.keeps_inShape hc _ ih

/-! ## Documents as values -/

/-- Reading a path of the document reads it in the value. -/
theorem InShape.toOption_getValue (h : doc.InShape) (path : Path) :
    (doc.getValue path).toOption = doc.toValue.get? path := by
  obtain ⟨n, hn⟩ := h
  rw [hn.toOption_getValue, hn.toValue_eq]

/-- What is read at a path is what the value holds there. -/
theorem InShape.getValue_eq_ok_iff (h : doc.InShape) {path : Path} :
    doc.getValue path = .ok v ↔ doc.toValue.get? path = some v := by
  rw [← h.toOption_getValue]
  cases doc.getValue path <;> simp [Except.toOption]

/-- A write succeeds where the value can be written. -/
theorem InShape.isOk_write_iff (h : doc.InShape) (path : Path) (hv : v.Ordered) :
    (∃ k doc', doc.write path v = .ok (k, doc')) ↔ (doc.toValue.write? path v).isSome := by
  constructor
  · rintro ⟨k, doc', hw⟩
    rw [(h.write hv hw).2]
    rfl
  · intro hs
    obtain ⟨n, hn⟩ := h
    have hf := hn.write path hv
    cases hw : doc.write path v with
    | ok answer => exact ⟨answer.1, answer.2, rfl⟩
    | error e =>
      rw [hw] at hf
      have hnone : n.value.write? path v = none := hf
      rw [hn.toValue_eq, hnone] at hs
      contradiction

/-- A removal succeeds where the value has a part to remove. -/
theorem InShape.isOk_remove_iff (h : doc.InShape) (path : Path) :
    (∃ w doc', doc.remove path = .ok (w, doc')) ↔ (doc.toValue.remove? path).isSome := by
  constructor
  · rintro ⟨w, doc', hr⟩
    rw [(h.remove hr).2.2]
    rfl
  · intro hs
    obtain ⟨n, hn⟩ := h
    have hf := hn.remove path
    cases hr : doc.remove path with
    | ok answer => exact ⟨answer.1, answer.2, rfl⟩
    | error e =>
      rw [hr] at hf
      have hnone : n.value.remove? path = none := hf
      rw [hn.toValue_eq, hnone] at hs
      contradiction

/-- A removal that the value allows succeeds and does what it does to the value. -/
theorem InShape.exists_remove (h : doc.InShape) (hr : doc.toValue.remove? path = some v) :
    ∃ w doc', doc.remove path = .ok (w, doc') ∧ doc'.InShape ∧ doc'.toValue = v := by
  obtain ⟨w, doc', hd⟩ := (h.isOk_remove_iff path).mpr (by rw [hr]; rfl)
  obtain ⟨hshape, -, hleft⟩ := h.remove hd
  exact ⟨w, doc', hd, hshape, Option.some.inj (hleft.symm.trans hr)⟩

/-- A reachable document behaves as its value `v` does.  Reading a path finds what is at the path in
`v`.  A write succeeds at the root, in a field of an object and at an index of an array, and then
the document has the value of the same write into `v`.  A removal succeeds where `v` has a part, and
answers it; then the document has the value of the same removal from `v`.  What fails leaves the
document alone. -/
theorem Reachable.behaves_as_value (hr : doc.Reachable) (path : Path) {x : Value}
    (hx : x.Ordered) :
    (doc.getValue path).toOption = doc.toValue.get? path ∧
    ((∃ k doc', (set path x doc).value = (.ok k, doc')) ↔
      path = [] ∨ ∃ before key c, path = before ++ [key] ∧ doc.toValue.get? before = some c ∧
        ((∃ fields name, c = .object fields ∧ key = .field name) ∨
          ∃ items i, c = .array items ∧ key = .index i)) ∧
    (∀ k doc', (set path x doc).value = (.ok k, doc') →
      doc.toValue.write? path x = some doc'.toValue) ∧
    (∀ e doc', (set path x doc).value = (.error e, doc') → doc' = doc) ∧
    ((∃ w doc', (delete path doc).value = (.ok w, doc')) ↔
      path ≠ [] ∧ (doc.toValue.get? path).isSome) ∧
    (∀ w doc', (delete path doc).value = (.ok w, doc') →
      doc.toValue.get? path = some w ∧ doc.toValue.remove? path = some doc'.toValue) ∧
    (∀ e doc', (delete path doc).value = (.error e, doc') → doc' = doc) := by
  have h := hr.inShape
  refine ⟨h.toOption_getValue path, ?_, ?_, ?_, ?_, ?_, ?_⟩
  · -- Which writes succeed: those that the value allows.
    rw [← Value.isSome_write?_iff (w := x), ← h.isOk_write_iff path hx, value_set]
    rcases doc.write path x with e | ⟨k, d⟩ <;> simp
  · intro k doc' hs
    rw [value_set] at hs
    cases hw : doc.write path x with
    | error e => simp [hw] at hs
    | ok answer =>
      obtain ⟨j, d⟩ := answer
      obtain ⟨-, rfl⟩ : j = k ∧ d = doc' := by simpa [hw] using hs
      exact (h.write hx hw).2
  · intro e doc' hs
    rw [value_set] at hs
    cases hw : doc.write path x with
    | ok answer => simp [hw] at hs
    | error e' =>
      obtain ⟨-, rfl⟩ : e' = e ∧ doc = doc' := by simpa [hw] using hs
      rfl
  · -- Which removals succeed, and what they do; the same again.
    rw [← Value.isSome_remove?_iff, ← h.isOk_remove_iff path, value_delete]
    rcases doc.remove path with e | ⟨w, d⟩ <;> simp
  · intro w doc' hs
    rw [value_delete] at hs
    cases hw : doc.remove path with
    | error e => simp [hw] at hs
    | ok answer =>
      obtain ⟨u, d⟩ := answer
      obtain ⟨rfl, rfl⟩ : u = w ∧ d = doc' := by simpa [hw] using hs
      exact (h.remove hw).2
  · intro e doc' hs
    rw [value_delete] at hs
    cases hw : doc.remove path with
    | ok answer => simp [hw] at hs
    | error e' =>
      obtain ⟨-, rfl⟩ : e' = e ∧ doc = doc' := by simpa [hw] using hs
      rfl

/-- An element two beyond the end of an array comes after two nulls. -/
theorem Reachable.behaves_as_value_beyond_end :
    ∃ k doc', (set [.field "a", .index 2] (.string "x")
        (Document.ofValue (.object [("a", .array [])]))).value = (.ok k, doc') ∧
      doc'.toValue = .object [("a", .array [.null, .null, .string "x"])] := by
  have ho : (Value.object [("a", .array [])]).Ordered :=
    ⟨List.pairwise_singleton _ _, trivial, trivial⟩
  have hb := (Reachable.ofValue ho).behaves_as_value [.field "a", .index 2]
    (x := .string "x") trivial
  rw [toValue_ofValue ho] at hb
  obtain ⟨k, doc', hs⟩ := hb.2.1.mpr
    (Or.inr ⟨[.field "a"], .index 2, .array [], rfl, rfl, Or.inr ⟨[], 2, rfl, rfl⟩⟩)
  exact ⟨k, doc', hs, (Option.some.inj (hb.2.2.1 k doc' hs)).symm⟩

end Document

end Expansion
