import Expansion.Proofs.Document.Above
import Expansion.Proofs.Document.Atomic

/-!
  Documents that grow.

  A write at a new key and an overlay take nothing away: every node in use stays in its container
  and under its key, and the containers that get new parts keep those they have.  `Grown` says so
  of two documents, with the containers that got more.  In such documents a path that led to a node
  leads to it still (`Grown.get`), and a node from before is found where it was found before
  (`Grown.get_of_get`).

  A write is one of two things: it overwrites the node at the path, or it adds a part to the
  container above (`write_cases`), and only the second is growth.

  An overlay writes where the source has a part and the document has none.  The containers in which
  it writes are those that `Receives` describes of the document before (`grown_overlay`).  The
  induction is on the source; what later entries find is traced back through the growth so far
  (`Grown.receives`).
-/

namespace Expansion

namespace Content

/-- The other content is of the same kind and has every part under its key; it may have more. -/
structure Grows (before after : Content) : Prop where
  kind : after.kind = before.kind
  part? : ∀ key k, before.part? key = some k → after.part? key = some k

namespace Grows

/-- Content that does not change has grown by nothing. -/
theorem refl (content : Content) : content.Grows content := ⟨rfl, fun _ _ h => h⟩

/-- Content that has grown twice has grown. -/
theorem trans {a b c : Content} (hab : a.Grows b) (hbc : b.Grows c) : a.Grows c :=
  ⟨hbc.kind.trans hab.kind, fun key k h => hbc.part? key k (hab.part? key k h)⟩

/-- A new field leaves the others. -/
theorem insertField {name : String} {fields : Fields Nat} (h : Fields.find? name fields = none)
    (k : Nat) : (object fields).Grows ((object fields).insertField name k) := by
  refine ⟨rfl, fun key j hj => ?_⟩
  obtain ⟨other, hname, hfind⟩ := Option.bind_eq_some_iff.mp hj
  have hne : other ≠ name := by
    rintro rfl
    rw [h] at hfind
    cases hfind
  show (key.name?.bind fun name' => Fields.find? name' (Fields.insert name k fields)) = some j
  rw [hname, Option.bind_some, Fields.find?_insert_of_ne hne, hfind]

/-- New elements at the end leave those before. -/
theorem appendItems (items added : List Nat) :
    (array items).Grows ((array items).appendItems added) := by
  refine ⟨rfl, fun key j hj => ?_⟩
  obtain ⟨i, hindex, hi⟩ := Option.bind_eq_some_iff.mp hj
  obtain ⟨hlt, -⟩ := List.getElem?_eq_some_iff.mp hi
  show (key.index?.bind fun i => (items ++ added)[i]?) = some j
  rw [hindex, Option.bind_some, List.getElem?_append_left hlt, hi]

end Grows

end Content

namespace Document

variable {doc doc' d : Document} {before path : Path} {key : Key} {c h k w count : Nat}
  {more less : Nat → Prop} {v : Value}

/-! ## Nodes and their paths -/

/-- A document contains a path when the path leads to a handle. -/
theorem contains_eq_true_iff : doc.contains path = true ↔ ∃ k, doc.get path = .ok k := by
  rw [contains]
  cases doc.get path <;> simp

/-- A node is found at one path only. -/
theorem InShape.pathOf_of_get (hd : doc.InShape) (hg : doc.get path = .ok k) :
    doc.pathOf k = .ok path := by
  obtain ⟨n, hn⟩ := hd
  obtain ⟨c, hc, rfl⟩ := hn.exists_at?_of_get hg
  exact hn.pathOf_of_at? hc

/-- Every handle in use is found at some path. -/
theorem InShape.exists_get (hd : doc.InShape) (hk : (doc.slot? k).isSome) :
    ∃ path, doc.get path = .ok k := by
  obtain ⟨n, hn⟩ := hd
  obtain ⟨s, hs⟩ := Option.isSome_iff_exists.mp hk
  obtain ⟨path, c, hc, rfl⟩ := hn.exists_at?_of_slot? hs
  exact ⟨path, hn.get_of_at? hc⟩

/-! ## Growth -/

/-- Every node stays in its container, and what it holds only grows; it stays the same in nodes
other than those of `more`.  No slot is emptied. -/
structure Grown (doc doc' : Document) (more : Nat → Prop) : Prop where
  top : doc'.top = doc.top
  stale : ∀ h, doc'.Stale h → doc.Stale h
  slot : ∀ h s, doc.slot? h = some s → ∃ content, doc'.slot? h = some ⟨s.parent, content⟩ ∧
    s.content.Grows content ∧ (¬ more h → content = s.content)

namespace Grown

/-- A document that does not change has grown by nothing. -/
theorem refl (doc : Document) (more : Nat → Prop) : Grown doc doc more :=
  ⟨rfl, fun _ => id, fun _ s hs => ⟨s.content, hs, .refl _, fun _ => rfl⟩⟩

/-- The second growth counts where there was a node before the first. -/
theorem trans (hg : Grown doc d more) (hg' : Grown d doc' less)
    (hless : ∀ h, (doc.slot? h).isSome → less h → more h) : Grown doc doc' more := by
  refine ⟨hg'.top.trans hg.top, fun h hs => hg.stale h (hg'.stale h hs), fun h s hs => ?_⟩
  obtain ⟨content, hd, hgrows, hsame⟩ := hg.slot h s hs
  obtain ⟨content', hd', hgrows', hsame'⟩ := hg'.slot h _ hd
  refine ⟨content', hd', hgrows.trans hgrows', fun hmore => ?_⟩
  have hnot : ¬ less h := fun hl => hmore (hless h (by rw [hs]; rfl) hl)
  exact (hsame' hnot).trans (hsame hmore)

/-- Growth may be granted to more containers than have used it. -/
theorem mono (hg : Grown doc doc' less) (hless : ∀ h, less h → more h) : Grown doc doc' more :=
  ⟨hg.top, hg.stale, fun h s hs => by
    obtain ⟨content, hd, hgrows, hsame⟩ := hg.slot h s hs
    exact ⟨content, hd, hgrows, fun hm => hsame fun hl => hm (hless h hl)⟩⟩

/-- A node stays in its container. -/
theorem parent {p : Option Nat} (hg : Grown doc doc' more) (hp : doc.parent h = .ok p) :
    doc'.parent h = .ok p := by
  obtain ⟨content, hs⟩ := parent_eq_ok_iff.mp hp
  obtain ⟨content', hd, -⟩ := hg.slot h _ hs
  exact parent_eq_ok_iff.mpr ⟨content', hd⟩

/-- A node stays of its kind. -/
theorem kind (hg : Grown doc doc' more) (hs : (doc.slot? h).isSome) :
    doc'.kind h = doc.kind h := by
  obtain ⟨s, hs⟩ := Option.isSome_iff_exists.mp hs
  obtain ⟨content, hd, hgrows, -⟩ := hg.slot h s hs
  simp only [Document.kind, Document.slot, hs, hd, Except.map, hgrows.kind]

/-- What a path led to, it leads to still.  A step leads where it led, since what a container holds
only grows. -/
theorem get (hg : Grown doc doc' more) (hk : doc.get path = .ok k) : doc'.get path = .ok k := by
  -- The induction is on the path, from any node that it may start at.
  have hfollow : ∀ before h, doc.follow before path h = .ok k →
      doc'.follow before path h = .ok k := by
    clear hk
    induction path with
    | nil => exact fun _ _ hk => hk
    | cons key rest ih =>
      intro before h hk
      simp only [follow, bind, Except.bind] at hk ⊢
      cases hs : doc.step before key h with
      | error e => simp [hs] at hk
      | ok j =>
        obtain ⟨s, hslot, hpart⟩ := step_eq_ok_iff.mp hs
        obtain ⟨content, hd, hgrows, -⟩ := hg.slot h s hslot
        have hs' : doc'.step before key h = .ok j :=
          step_eq_ok_iff.mpr ⟨_, hd, hgrows.part? key j hpart⟩
        rw [hs] at hk
        rw [hs']
        exact ih _ _ hk
  rw [Document.get, hg.top]
  exact hfollow [] doc.top hk

/-- A node from before is found where it was found before.  It was found somewhere before, and is
found there still; since no node is found at two paths, that is the path. -/
theorem get_of_get (hg : Grown doc doc' more) (hd : doc.InShape) (hd' : doc'.InShape)
    (hs : (doc.slot? k).isSome) (hk : doc'.get path = .ok k) : doc.get path = .ok k := by
  obtain ⟨path', hk'⟩ := hd.exists_get hs
  have hpaths := (hd'.pathOf_of_get (hg.get hk')).symm.trans (hd'.pathOf_of_get hk)
  rwa [← Except.ok.inj hpaths]

end Grown

/-- Growth takes no node away, and touches the containers that get more and the nodes above them.  A
node at or above which nothing grows has the same slots below it, and so the same value. -/
theorem InShape.leaves_of_grown (hd : doc.InShape) (hg : Grown doc doc' more) :
    Leaves doc doc' (fun _ => False) fun h => ∃ k, more k ∧ (h = k ∨ doc.Above h k) := by
  refine hd.leaves_of_changed more (fun k hs hmore => ?_)
    (fun k p hp _ => hg.parent hp) (fun _ _ hgone => hgone.elim)
    fun h k hmore hreach => Or.inr ⟨k, hmore, hreach⟩
  obtain ⟨s, hs⟩ := Option.isSome_iff_exists.mp hs
  obtain ⟨content, hd', -, hsame⟩ := hg.slot k s hs
  rw [hd', hs, hsame hmore]

/-! ## Writes at new keys -/

/-- The slots that are issued are in use. -/
theorem Issued.stale (hissued : Issued doc d count) (hs : d.Stale h) : doc.Stale h := by
  have hlt : h < doc.slots.size := by
    refine Nat.lt_of_not_le fun hle => ?_
    have hsome := hissued.new h hle hs.issued
    rw [hs.empty] at hsome
    cases hsome
  exact ⟨hlt, (hissued.old h hlt).symm.trans hs.empty⟩

/-- Other content empties no slot. -/
theorem stale_of_update {g : Content → Content} (hs : (d.update c g).Stale h) : d.Stale h := by
  refine ⟨size_update c g d ▸ hs.issued, ?_⟩
  have hempty := hs.empty
  rw [slot?_update] at hempty
  split at hempty
  · exact Option.map_eq_none_iff.mp hempty
  · exact hempty

/-- When slots are issued and the content of one container grows, the document grows there. -/
theorem grown_of_issued {g : Content → Content} (hissued : Issued doc d count)
    (hgrows : ∀ s, doc.slot? c = some s → s.content.Grows (g s.content)) :
    Grown doc (d.update c g) fun h => h = c := by
  refine ⟨hissued.top, fun h hs => hissued.stale (stale_of_update hs), fun h s hs => ?_⟩
  have hold := (hissued.old h (lt_size_of_slot? hs)).trans hs
  rw [slot?_update, hold]
  by_cases hc : c = h
  · subst hc
    exact ⟨g s.content, by simp, hgrows s hs, fun hne => absurd rfl hne⟩
  · exact ⟨s.content, by simp [hc], .refl _, fun _ => rfl⟩

/-- What is built for a container is held in it, whatever becomes of its content. -/
theorem holds_update_alloc (hc : c < d.slots.size) (g : Content → Content) :
    Holds ((d.alloc (some c) v).2.update c g) (some c)
      (Node.label d.slots.size (d.slots.size + 1) v) := by
  obtain ⟨-, -, hheld⟩ := alloc_spec (some c) v d fun p hp => Option.some.inj hp ▸ hc
  refine hheld.congr fun k hk => ?_
  have hle : d.slots.size ≤ k := by
    rcases Node.mem_handles_label.mp hk with rfl | ⟨hle, -⟩
    · exact Nat.le_refl _
    · exact Nat.le_of_succ_le hle
  rw [slot?_update, if_neg (by omega)]

/-- A value got a new handle, as the part of a container under a key, and nothing else changed. -/
structure Added (doc doc' : Document) (c : Nat) (key : Key) (w : Nat) (v : Value) : Prop where
  grown : Grown doc doc' fun h => h = c
  held : ∃ t, doc'.Holds (some c) t ∧ t.id = w ∧ t.value = v
  step : ∀ before, doc'.step before key c = .ok w
  new : doc.slots.size ≤ w

/-- A field that is placed anew is added.  The name is new in the object, so the other fields are
found as before. -/
theorem added_newField {p : Option Nat} {fields : Fields Nat} {name : String}
    (hs : doc.slot? c = some ⟨p, .object fields⟩) (hf : Fields.find? name fields = none)
    (hw : doc.writeAt c v (.newField name) = .ok (w, doc')) :
    Added doc doc' c (.field name) w v := by
  have hlt := lt_size_of_slot? hs
  obtain ⟨hid, hissued, -⟩ := alloc_spec (some c) v doc fun p hp => Option.some.inj hp ▸ hlt
  obtain ⟨rfl, rfl⟩ : (doc.alloc (some c) v).1 = w ∧ (doc.alloc (some c) v).2.update c
      (Content.insertField name (doc.alloc (some c) v).1) = doc' :=
    Prod.mk.inj (Except.ok.inj hw)
  refine ⟨grown_of_issued hissued fun s hs' => ?_, ⟨_, holds_update_alloc hlt _, ?_,
    Node.value_label ..⟩, fun before => ?_, Nat.le_of_eq hid.symm⟩
  · obtain rfl := Option.some.inj (hs.symm.trans hs')
    exact .insertField hf _
  · rw [Node.id_label, hid]
  · refine step_eq_ok_iff.mpr ⟨⟨p, .object (Fields.insert name (doc.alloc (some c) v).1 fields)⟩,
      ?_, Fields.find?_insert_self ..⟩
    rw [slot?_update, if_pos rfl, hissued.old c hlt, hs]
    rfl

/-- An element that is placed beyond the end is added, with nulls before it that nothing leads to
yet. -/
theorem added_newItem {p : Option Nat} {items : List Nat} {padding : Nat}
    (hs : doc.slot? c = some ⟨p, .array items⟩)
    (hw : doc.writeAt c v (.newItem padding) = .ok (w, doc')) :
    Added doc doc' c (.index (items.length + padding)) w v := by
  have hlt := lt_size_of_slot? hs
  obtain ⟨hids, hbuilt, -⟩ := buildItems_spec c (List.replicate padding .null) doc hlt
  rw [Shape.sizeItems_replicate_null] at hbuilt
  let nulls := (doc.buildItems c (List.replicate padding .null)).1
  let d := (doc.buildItems c (List.replicate padding .null)).2
  -- The nulls take one slot each, and the value comes after them.
  have hlast : d.slots.size = doc.slots.size + padding := hbuilt.size
  have hlt' : c < d.slots.size := by omega
  obtain ⟨hid, hissued, -⟩ := alloc_spec (some c) v d fun p hp => Option.some.inj hp ▸ hlt'
  obtain ⟨rfl, rfl⟩ : (d.alloc (some c) v).1 = w ∧ (d.alloc (some c) v).2.update c
      (Content.appendItems (nulls ++ [(d.alloc (some c) v).1])) = doc' :=
    Prod.mk.inj (Except.ok.inj hw)
  have hlength : nulls.length = padding := by
    show (doc.buildItems c (List.replicate padding .null)).1.length = padding
    rw [hids, List.length_map, Node.length_labelItems, List.length_replicate]
  refine ⟨grown_of_issued (hbuilt.trans hissued) fun s hs' => ?_, ⟨_, holds_update_alloc hlt' _, ?_,
    Node.value_label ..⟩, fun before => ?_, by omega⟩
  · obtain rfl := Option.some.inj (hs.symm.trans hs')
    exact .appendItems ..
  · rw [Node.id_label, hid]
  · refine step_eq_ok_iff.mpr ⟨⟨p, .array (items ++ (nulls ++ [(d.alloc (some c) v).1]))⟩, ?_, ?_⟩
    · rw [slot?_update, if_pos rfl, (hbuilt.trans hissued).old c hlt, hs]
      rfl
    · simp [Content.part?, Key.index?, hlength]

/-- A write overwrites the node at the path, or adds a part to the container above it. -/
theorem write_cases (hw : doc.write path v = .ok (w, doc')) :
    (doc.get path = .ok w ∧ doc.overwrite w v = .ok doc') ∨
      ∃ before key c, path = before ++ [key] ∧ doc.get before = .ok c ∧
        Added doc doc' c key w v := by
  simp only [write, bind, Except.bind] at hw
  cases hp : doc.placeAt path with
  | error e => simp [hp] at hw
  | ok answer =>
    obtain ⟨c, place⟩ := answer
    simp only [hp] at hw
    have hover : ∀ k, place = .overwrite k →
        doc.get path = .ok w ∧ doc.overwrite w v = .ok doc' := by
      rintro k rfl
      obtain ⟨rfl, ho⟩ := map_overwrite_eq_ok_iff.mp hw
      exact ⟨(get_of_placeAt hp).2 k rfl, ho⟩
    rcases placeAt_cases hp with ⟨-, -, hplace⟩ | ⟨before, key, rfl, hg, hplace⟩
    · exact Or.inl (hover c hplace)
    obtain ⟨p, content, hs, hcases⟩ := place_cases hplace
    rcases hcases with ⟨k, hk, -⟩ | ⟨name, fields, rfl, rfl, rfl, hf⟩ |
      ⟨count, items, rfl, rfl, rfl⟩
    · exact Or.inl (hover k hk)
    · exact Or.inr ⟨before, _, c, rfl, hg, added_newField hs hf hw⟩
    · exact Or.inr ⟨before, _, c, rfl, hg, added_newItem hs hw⟩

/-! ## Overlays -/

/-- Overlaying a value at a path adds parts to a container: the value has a container of the same
kind in its place, with a part under a key where the document has none. -/
def Receives (doc : Document) (path : Path) (source : Value) (c : Nat) : Prop :=
  ∃ rest key part v, source.get? rest = some part ∧ part.part? key = some v ∧
    doc.get (path ++ rest) = .ok c ∧ doc.kind c = .ok part.kind ∧
    doc.contains (path ++ rest ++ [key]) = false

variable {source : Value}

/-- What a part of the source adds, the source adds. -/
theorem Receives.of_part? (hr : doc.Receives (path ++ [key]) v c)
    (hpart : source.part? key = some v) : doc.Receives path source c := by
  obtain ⟨rest, k, part, x, hrest, hx, hget, hkind, hnone⟩ := hr
  rw [← List.append_cons] at hget hnone
  refine ⟨key :: rest, k, part, x, ?_, hx, hget, hkind, hnone⟩
  rw [Value.get?, hpart]
  exact hrest

/-- A node from before that gets parts after some growth gets them from the document before too.
The container is found where it was found before, is of the same kind, and a key that leads nowhere
now led nowhere then. -/
theorem Grown.receives (hg : Grown doc d more) (hd : doc.InShape) (hd' : d.InShape)
    (hs : (doc.slot? c).isSome) (hr : d.Receives path source c) : doc.Receives path source c := by
  obtain ⟨rest, key, part, v, hrest, hpart, hget, hkind, hnone⟩ := hr
  refine ⟨rest, key, part, v, hrest, hpart, hg.get_of_get hd hd' hs hget, ?_, ?_⟩
  · rw [← hg.kind hs, hkind]
  · cases hc : doc.contains (path ++ rest ++ [key]) with
    | false => rfl
    | true =>
      obtain ⟨k, hk⟩ := contains_eq_true_iff.mp hc
      rw [contains_eq_true_iff.mpr ⟨k, hg.get hk⟩] at hnone
      cases hnone

open Edit

/-- An edit after an edit.  In an overlay, the second edit is the rest of the entries. -/
theorem grown_bind {ε α β : Type} {x : Edit ε α} {f : α → Edit ε β} (hd : doc.InShape)
    (hx : Keeps InShape x) (hg : Grown doc (x doc).value.2 (doc.Receives path source))
    (hf : ∀ a d, d.InShape → Grown d (f a d).value.2 (d.Receives path source)) :
    Grown doc ((x >>= f) doc).value.2 (doc.Receives path source) := by
  have hd' := hx doc hd
  rw [value_bind]
  match hv : (x doc).value with
  | (.error e, d) => rwa [hv] at hg
  | (.ok a, d) =>
    rw [hv] at hg hd'
    -- What the second edit adds to is described by the document before the first.
    exact hg.trans (hf a d hd') fun h hs hr => hg.receives hd hd' hs hr

/-- A key leads into arrays or into objects, not into both. -/
theorem kind_eq_of_part? {content : Content} (hk : content.part? key = some k)
    (hv : source.part? key = some v) : content.kind = source.kind := by
  cases content with
  | scalar s => cases hk
  | array items =>
    cases source with
    | scalar s => cases hv
    | array more => rfl
    | object more => cases key <;> simp [Content.part?, Value.part?, Key.index?, Key.name?] at hk hv
  | object fields =>
    cases source with
    | scalar s => cases hv
    | object more => rfl
    | array more => cases key <;> simp [Content.part?, Value.part?, Key.index?, Key.name?] at hk hv

/-- One entry of the source is written where the document has nothing, or merges, or is dropped. -/
theorem grown_overlayEntry {merge : Edit DocumentError Unit} (hd : doc.InShape)
    (hpart : source.part? key = some v)
    (hmerge : Grown doc (merge doc).value.2 (doc.Receives (path ++ [key]) v)) :
    Grown doc (overlayEntry (path ++ [key]) v merge doc).value.2 (doc.Receives path source) := by
  rw [value_overlayEntry]
  cases he : doc.existing (path ++ [key]) with
  | error e => exact .refl doc _
  | ok found =>
    cases found with
    | some found =>
      simp only
      split
      · exact hmerge.mono fun c hr => hr.of_part? hpart
      · exact .refl doc _
    | none =>
      -- Nothing is under the key, so what is written there overwrites nothing.
      have hnone : doc.contains (path ++ [key]) = false := by
        rw [contains]
        cases hg : doc.get (path ++ [key]) with
        | error e => rfl
        | ok k =>
          simp only [existing, hg] at he
          cases hk : doc.kind k <;> simp [hk, Except.map] at he
      simp only [value_bind, value_set]
      cases hw : doc.write (path ++ [key]) v with
      | error e => exact .refl doc _
      | ok answer =>
        obtain ⟨w, d⟩ := answer
        -- Since nothing was there to overwrite, the write adds a part.
        rcases write_cases hw with ⟨hg, -⟩ | ⟨before, key', c, happ, hg, hadded⟩
        · rw [contains_eq_true_iff.mpr ⟨w, hg⟩] at hnone
          cases hnone
        obtain ⟨rfl, hkey⟩ := List.append_inj' happ rfl
        obtain rfl := List.singleton_inj.mp hkey
        refine hadded.grown.mono fun h hc => hc ▸ ?_
        obtain ⟨s, hs, hstep⟩ := step_eq_ok_iff.mp (hadded.step path)
        have hkind : d.kind c = .ok source.kind := by
          rw [Document.kind, slot, hs]
          exact congrArg Except.ok (kind_eq_of_part? hstep hpart)
        refine ⟨[], key, source, v, rfl, hpart, by rwa [List.append_nil], ?_,
          by rwa [List.append_nil]⟩
        rw [← hadded.grown.kind (hd.isSome_slot?_of_get hg), hkind]

mutual

/-- An overlay adds parts to the containers that receive them, and changes nothing else. -/
theorem grown_overlay : (source : Value) → source.Ordered → {doc : Document} → (path : Path) →
    doc.InShape → Grown doc (overlay path source doc).value.2 (doc.Receives path source)
  | .scalar _, _, doc, path, _ => .refl doc _
  | .array items, ho, doc, path, hd =>
    grown_overlayItems items ho path 0 (.array items) (fun j v hj => by
      rw [Nat.zero_add]
      exact hj) hd
  | .object fields, ho, doc, path, hd =>
    grown_overlayFields fields ho.2 path (.object fields) (fun name v hm => ho.1.find?_of_mem hm) hd

/-- The elements from position `i` on of a source. -/
theorem grown_overlayItems : (rest : List Value) → Value.OrderedItems rest → {doc : Document} →
    (path : Path) → (i : Nat) → (source : Value) →
    (∀ j v, rest[j]? = some v → source.part? (.index (i + j)) = some v) → doc.InShape →
    Grown doc (overlayItems path i rest doc).value.2 (doc.Receives path source)
  | [], _, doc, path, i, source, _, _ => .refl doc _
  | v :: rest, ho, doc, path, i, source, hparts, hd => by
    rw [overlayItems]
    refine grown_bind hd
      (keeps_overlayEntry (keeps_inShape_set _ ho.1) (keeps_inShape_overlay _ ho.1))
      (grown_overlayEntry hd (hparts 0 v rfl) (grown_overlay v ho.1 _ hd)) fun _ d hd' => ?_
    refine grown_overlayItems rest ho.2 path (i + 1) source (fun j w hj => ?_) hd'
    rw [Nat.add_assoc, Nat.add_comm 1 j]
    exact hparts (j + 1) w hj

/-- Some fields of a source. -/
theorem grown_overlayFields : (rest : List (String × Value)) → Value.OrderedFields rest →
    {doc : Document} → (path : Path) → (source : Value) →
    (∀ name v, (name, v) ∈ rest → source.part? (.field name) = some v) → doc.InShape →
    Grown doc (overlayFields path rest doc).value.2 (doc.Receives path source)
  | [], _, doc, path, source, _, _ => .refl doc _
  | (name, v) :: rest, ho, doc, path, source, hparts, hd => by
    rw [overlayFields]
    refine grown_bind hd
      (keeps_overlayEntry (keeps_inShape_set _ ho.1) (keeps_inShape_overlay _ ho.1))
      (grown_overlayEntry hd (hparts name v List.mem_cons_self) (grown_overlay v ho.1 _ hd))
      fun _ d hd' => ?_
    exact grown_overlayFields rest ho.2 path source
      (fun other w hm => hparts other w (List.mem_cons_of_mem _ hm)) hd'

end

end Document

end Expansion
