import Expansion.Proofs.Document.Refinement
import Expansion.Proofs.Value.Merge

/-!
  Edits that mirror functions of values.

  An edit mirrors a function of values when it succeeds exactly where the function has a value, and
  then leaves a document of that value.  Writes, removals and overlays do (`mirrors_set`,
  `mirrors_delete`, `mirrors_overlay`), and so do sequences of such edits.

  For an overlay the induction is on the source.  One entry of the source either merges into the
  part under its key or is written there; either way that is one write in the container
  (`overlayEntry_of_get?`).  A source that has something to add fails at its first entry where there
  is no container of its kind, before anything is changed (`overlayEntry_of_unwritable`).
-/

namespace Expansion

namespace Edit

variable {ε ε' α β : Type}

/-- The edit succeeds exactly where the function has a value, and leaves a document of it. -/
def Mirrors (x : Edit ε α) (f : Value → Option Value) : Prop :=
  ∀ doc, doc.InShape → match (x doc).value with
    | (.ok _, doc') => doc'.InShape ∧ f doc.toValue = some doc'.toValue
    | (.error _, _) => f doc.toValue = none

variable {x : Edit ε α} {f g : Value → Option Value} {doc doc' : Document}

/-- An edit that succeeds leaves a document in shape, with the value that the function has. -/
theorem Mirrors.of_ok (h : Mirrors x f) (hd : doc.InShape) {a : α}
    (hx : (x doc).value = (.ok a, doc')) : doc'.InShape ∧ f doc.toValue = some doc'.toValue := by
  have hm := h doc hd
  rwa [hx] at hm

/-- Where the function has a value the edit succeeds. -/
theorem Mirrors.of_some (h : Mirrors x f) (hd : doc.InShape) {v : Value}
    (hv : f doc.toValue = some v) :
    ∃ a doc', (x doc).value = (.ok a, doc') ∧ doc'.InShape ∧ doc'.toValue = v := by
  have hm := h doc hd
  match hx : (x doc).value with
  | (.ok a, doc') =>
    rw [hx] at hm
    exact ⟨a, doc', rfl, hm.1, Option.some.inj (hm.2.symm.trans hv)⟩
  | (.error e, doc') =>
    rw [hx, hv] at hm
    cases hm

/-- The value that is left, without the answer. -/
theorem Mirrors.toValue_of_some (h : Mirrors x f) (hd : doc.InShape) {v : Value}
    (hv : f doc.toValue = some v) : (x doc).value.2.toValue = v := by
  obtain ⟨a, doc', hx, -, rfl⟩ := h.of_some hd hv
  rw [hx]

/-- Only the values of the function matter. -/
theorem Mirrors.congr (h : Mirrors x f) (hfg : ∀ v, f v = g v) : Mirrors x g := by
  rwa [← funext hfg]

/-- An edit that does nothing mirrors the function that keeps every value. -/
theorem mirrors_pure (a : α) : Mirrors (pure a : Edit ε α) some :=
  fun _ h => ⟨h, rfl⟩

/-- Edits one after the other mirror the functions one after the other. -/
theorem Mirrors.bind {y : α → Edit ε β} (hx : Mirrors x f) (hy : ∀ a, Mirrors (y a) g) :
    Mirrors (x >>= y) fun v => (f v).bind g := by
  intro doc hd
  have hm := hx doc hd
  rw [value_bind]
  match hv : (x doc).value with
  | (.error e, doc') =>
    rw [hv] at hm
    show (f doc.toValue).bind g = none
    rw [hm]
    rfl
  | (.ok a, doc') =>
    rw [hv] at hm
    have hnext := hy a doc' hm.1
    simp only [hm.2, Option.bind_some]
    exact hnext

/-- What an error is called does not matter. -/
theorem Mirrors.mapError (h : Mirrors x f) (e : ε → ε') : Mirrors (Edit.mapError e x) f := by
  intro doc hd
  have hm := h doc hd
  rw [value_mapError]
  match hv : (x doc).value with
  | (.ok a, doc') => rwa [hv] at hm
  | (.error e, doc') => rwa [hv] at hm

/-- A note in the log does not matter. -/
theorem mirrors_note_bind {y : Edit ε α} (h : Mirrors y f) (level : Level) (message : String)
    (details : List (String × String)) :
    Mirrors (Edit.note level message details >>= fun _ => y) f := by
  intro doc hd
  rw [value_note_bind]
  exact h doc hd

end Edit

namespace Document

open Edit

variable {doc doc' : Document} {path : Path} {key : Key} {v w c : Value}

/-! ## Writes and removals -/

/-- A write by path mirrors the write into the value. -/
theorem mirrors_set (path : Path) (hv : v.Ordered) :
    Mirrors (set path v) fun target => target.write? path v := by
  intro doc hd
  rw [value_set]
  cases hw : doc.write path v with
  | ok answer =>
    obtain ⟨k, doc'⟩ := answer
    exact hd.write hv hw
  | error e =>
    have hnone := (not_congr (hd.isOk_write_iff path hv)).mp (by simp [hw])
    simpa using hnone

/-- A write whose answer is dropped. -/
theorem mirrors_write (path : Path) (hv : v.Ordered) :
    Mirrors (do let _ ← set path v : Edit DocumentError Unit)
      fun target => target.write? path v := by
  refine (((mirrors_set path hv).bind fun _ => mirrors_pure ()).congr fun target => ?_ )
  cases target.write? path v <;> rfl

/-- A removal by path mirrors the removal from the value. -/
theorem mirrors_delete (path : Path) :
    Mirrors (delete path) fun target => target.remove? path := by
  intro doc hd
  rw [value_delete]
  cases hr : doc.remove path with
  | ok answer =>
    obtain ⟨w, doc'⟩ := answer
    obtain ⟨hs, -, hv⟩ := hd.remove hr
    exact ⟨hs, hv⟩
  | error e =>
    have hnone := (not_congr (hd.isOk_remove_iff path)).mp (by simp [hr])
    simpa using hnone

/-! ## What is there already -/

/-- A path is followed step by step. -/
theorem follow_append (doc : Document) (before p q : Path) (h : Nat) :
    doc.follow before (p ++ q) h
      = (doc.follow before p h).bind fun c => doc.follow (before ++ p) q c := by
  induction p generalizing before h with
  | nil =>
    show doc.follow before q h = doc.follow (before ++ []) q h
    rw [List.append_nil]
  | cons k rest ih =>
    simp only [List.cons_append, follow, bind, Except.bind]
    cases doc.step before k h with
    | error e => rfl
    | ok c =>
      have hrest := ih (before ++ [k]) c
      rw [List.append_assoc] at hrest
      exact hrest

/-- The last key of a path is followed from where the others lead to. -/
theorem get_concat (doc : Document) (path : Path) (key : Key) :
    doc.get (path ++ [key]) = (doc.get path).bind fun c => doc.step path key c := by
  rw [get, follow_append]
  refine congrArg _ (funext fun c => ?_)
  simp only [follow, List.nil_append, bind, Except.bind]
  cases doc.step path key c <;> rfl

/-- The document holds something of the kind that its value holds. -/
theorem InShape.existing_of_get? (h : doc.InShape) (hv : doc.toValue.get? path = some v) :
    doc.existing path = .ok (some v.kind) := by
  obtain ⟨n, hn⟩ := h
  rw [hn.toValue_eq, ← Node.value_at?] at hv
  obtain ⟨d, hd, rfl⟩ := Option.map_eq_some_iff.mp hv
  obtain ⟨p, hp⟩ := hn.holds.at? hd
  have hkind : d.content.kind = d.value.kind := by
    cases d <;> rfl
  simp only [existing, hn.get_of_at? hd, kind, slot_of_holds hp, Except.map, hkind]

/-- The document holds nothing under a new key of a container.  That the container takes the key is
what tells this from a key of the wrong form, on which reading fails with another error. -/
theorem InShape.existing_of_missing (h : doc.InShape) (hc : doc.toValue.get? path = some c)
    (hnone : c.part? key = none) (hplace : (c.place? key w).isSome) :
    doc.existing (path ++ [key]) = .ok none := by
  obtain ⟨n, hn⟩ := h
  rw [hn.toValue_eq, ← Node.value_at?] at hc
  obtain ⟨d, hd, rfl⟩ := Option.map_eq_some_iff.mp hc
  obtain ⟨p, hp⟩ := hn.holds.at? hd
  have hpart : d.part? key = none := by
    rw [← Node.value_part?] at hnone
    exact Option.map_eq_none_iff.mp hnone
  -- The step fails because the key is new: the container takes keys of this form.
  have hstep : doc.step path key d.id = .error (.pathNotFound (path ++ [key]).text) := by
    simp only [step, slot_of_holds hp, bind, Except.bind]
    cases d with
    | scalar id s => simp [Node.value, Value.place?] at hplace
    | array id items =>
      cases key with
      | field name => simp [Node.value, Value.place?, Key.index?] at hplace
      | index i =>
        have hi : items[i]? = none := hpart
        simp [Node.content, List.getElem?_map, hi]
        rfl
    | object id fields =>
      cases key with
      | index i => simp [Node.value, Value.place?, Key.name?] at hplace
      | field name =>
        have hname : Fields.find? name fields = none := hpart
        simp [Node.content, Fields.find?_map, hname]
        rfl
  rw [existing, get_concat, hn.get_of_at? hd, Except.bind, hstep]
  rfl

/-- The document does not hold anything where its value holds nothing. -/
theorem InShape.existing_ne_some (h : doc.InShape) (hv : doc.toValue.get? path = none)
    (found : Kind) : doc.existing path ≠ .ok (some found) := by
  obtain ⟨n, hn⟩ := h
  rw [hn.toValue_eq, ← Node.value_at?] at hv
  obtain ⟨e, he⟩ := hn.get_of_at?_none (Option.map_eq_none_iff.mp hv)
  rw [existing, he]
  simp only
  split <;> simp

/-! ## One entry of an overlay -/

/-- One entry of a source: written where nothing is, merged into a container of its kind, and passed
over where anything else is. -/
theorem value_overlayEntry (path : Path) (v : Value) (merge : Edit DocumentError Unit)
    (doc : Document) :
    (overlayEntry path v merge doc).value =
      match doc.existing path with
      | .error e => (.error e, doc)
      | .ok none => ((set path v >>= fun _ => pure ()) doc).value
      | .ok (some found) =>
        if found.isContainer && found == v.kind then (merge doc).value else (.ok (), doc) := by
  rw [overlayEntry, value_current_bind, value_bind, value_lift]
  cases doc.existing path with
  | error e => rfl
  | ok found =>
    cases found with
    | none => rfl
    | some found =>
      simp only
      split <;> rfl

/-- What an entry of a source makes of the part under its key. -/
def settled (found : Option Value) (v : Value) : Value :=
  match found with
  | some x => x.merge v
  | none => v

/-- An entry is brought to a container that takes its key by one write of the container.  Under the
key there is a value of the same kind, which is merged into, or another value, which stays, or
nothing, and then the entry is written. -/
theorem overlayEntry_of_get? {merge : Edit DocumentError Unit} {c' : Value} (h : doc.InShape)
    (hv : v.Ordered) (hc : doc.toValue.get? path = some c)
    (hp : c.place? key (settled (c.part? key) v) = some c')
    (hmerge : ∀ x, doc.toValue.get? (path ++ [key]) = some x → x.kind = v.kind →
      ∃ doc', (merge doc).value = (.ok (), doc') ∧ doc'.InShape ∧
        doc.toValue.write? (path ++ [key]) (x.merge v) = some doc'.toValue) :
    ∃ doc', (overlayEntry (path ++ [key]) v merge doc).value = (.ok (), doc') ∧ doc'.InShape ∧
      doc.toValue.write? path c' = some doc'.toValue := by
  have hget : doc.toValue.get? (path ++ [key]) = c.part? key := by
    rw [Value.get?_append, hc, Option.bind_some]
    show (c.part? key).bind some = c.part? key
    cases c.part? key <;> rfl
  rw [value_overlayEntry]
  cases hx : c.part? key with
  | some x =>
    rw [hx] at hget
    have hp : c.place? key (x.merge v) = some c' := by rwa [hx] at hp
    rw [h.existing_of_get? hget]
    simp only
    split
    · rename_i halike
      obtain ⟨-, hkind⟩ := Bool.and_eq_true_iff.mp halike
      obtain ⟨doc', hm, hs, hw⟩ := hmerge x hget (by simpa using hkind)
      refine ⟨doc', hm, hs, ?_⟩
      rwa [Value.write?_concat_of_get? hc hp] at hw
    · rename_i halike
      -- Values that are not alike do not merge, so the container is written as it is.
      have hsame : x.merge v = x := Value.merge_of_not_alike (by simpa using halike)
      have hco : c.Ordered := h.ordered.get? hc
      rw [hsame, Value.place?_self hco hx] at hp
      obtain rfl := Option.some.inj hp
      exact ⟨doc, rfl, h, Value.write?_self h.ordered hc⟩
  | none =>
    have hp : c.place? key v = some c' := by rwa [hx] at hp
    -- Nothing is under the key: the entry itself is written.
    have hwrite : doc.toValue.write? (path ++ [key]) v = doc.toValue.write? path c' :=
      Value.write?_concat_of_get? hc hp
    obtain ⟨u, hu⟩ := Option.isSome_iff_exists.mp (Value.isSome_write?_of_get? hc c')
    obtain ⟨a, doc', hd, hs, rfl⟩ := (mirrors_write (path ++ [key]) hv).of_some h
      (hwrite.trans hu)
    rw [h.existing_of_missing hc hx (by rw [hp]; rfl)]
    exact ⟨doc', hd, hs, hu⟩

/-- Where nothing is and nothing can be written, an entry fails before anything is changed. -/
theorem overlayEntry_of_unwritable {merge : Edit DocumentError Unit} (h : doc.InShape)
    (hv : v.Ordered) (hnone : doc.toValue.get? path = none)
    (hw : doc.toValue.write? path v = none) :
    ∃ e, (overlayEntry path v merge doc).value = (.error e, doc) := by
  rw [value_overlayEntry]
  cases he : doc.existing path with
  | error e => exact ⟨e, rfl⟩
  | ok found =>
    cases found with
    | some found => exact absurd he (h.existing_ne_some hnone found)
    | none =>
      rw [value_bind, value_set]
      cases hd : doc.write path v with
      | error e => exact ⟨e, rfl⟩
      | ok answer =>
        have hwritten := (h.write hv hd).2
        rw [hw] at hwritten
        contradiction

/-! ## Overlays -/

/-- Elements merged into an empty row are that row. -/
theorem mergeItems_nil (more : List Value) : Value.mergeItems [] more = more := by
  cases more <;> simp [Value.mergeItems]

mutual

/-- An overlay on a value of the source's kind writes the merged value. -/
theorem overlay_of_get? : (source : Value) → source.Ordered → {doc : Document} →
    (path : Path) → {target : Value} → doc.InShape → doc.toValue.get? path = some target →
    target.kind = source.kind →
    ∃ doc', (overlay path source doc).value = (.ok (), doc') ∧ doc'.InShape ∧
      doc.toValue.write? path (target.merge source) = some doc'.toValue
  | .scalar s, _, doc, path, target, h, ht, hk => by
    refine ⟨doc, rfl, h, ?_⟩
    rw [Value.merge_of_not_alike (by rw [hk]; cases s <;> rfl)]
    exact Value.write?_self h.ordered ht
  | .array more, ho, doc, path, target, h, ht, hk => by
    cases target with
    | scalar s => cases s <;> cases hk
    | object fields => cases hk
    | array items =>
      rw [Value.merge]
      exact overlayItems_of_get? more ho path 0 h ht (Nat.zero_le _)
  | .object more, ho, doc, path, target, h, ht, hk => by
    cases target with
    | scalar s => cases s <;> cases hk
    | array items => cases hk
    | object fields =>
      rw [Value.merge]
      exact overlayFields_of_get? more ho.2 path h ht

/-- Elements from position `i` on merge, one after the other.  The elements before `i` are done;
each entry settles the element at its position, or adds one at the end. -/
theorem overlayItems_of_get? : (more : List Value) → Value.OrderedItems more → {doc : Document} →
    (path : Path) → (i : Nat) → {items : List Value} → doc.InShape →
    doc.toValue.get? path = some (.array items) → i ≤ items.length →
    ∃ doc', (overlayItems path i more doc).value = (.ok (), doc') ∧ doc'.InShape ∧
      doc.toValue.write? path (.array (items.take i ++ Value.mergeItems (items.drop i) more))
        = some doc'.toValue
  | [], _, doc, path, i, items, h, ht, hi => by
    refine ⟨doc, rfl, h, ?_⟩
    rw [Value.mergeItems, List.take_append_drop]
    exact Value.write?_self h.ordered ht
  | v :: rest, ho, doc, path, i, items, h, ht, hi => by
    let item := settled items[i]? v
    have hplace : (Value.array items).place? (.index i) item
        = some (.array (items.take i ++ item :: items.drop (i + 1))) := by
      show some (Value.array (Value.placeItem i item items)) = _
      rw [Value.placeItem]
      split
      · rename_i hlt
        rw [List.set_eq_take_append_cons_drop, if_pos hlt]
      · obtain rfl : i = items.length := by omega
        simp
    obtain ⟨next, he, hs, hw⟩ := overlayEntry_of_get? h ho.1 ht hplace
      fun x hx hk => overlay_of_get? v ho.1 (path ++ [.index i]) h hx hk
    have hnext : next.toValue.get? path
        = some (.array (items.take i ++ item :: items.drop (i + 1))) := by
      have hg := Value.get?_of_write? hw []
      rwa [List.append_nil] at hg
    have hlen : (items.take i).length = i := by rw [List.length_take]; omega
    obtain ⟨doc', hr, hs', hw'⟩ := overlayItems_of_get? rest ho.2 path (i + 1) hs hnext (by
      rw [List.length_append, hlen, List.length_cons]
      omega)
    refine ⟨doc', ?_, hs', ?_⟩
    · rw [overlayItems, value_bind_ok he]
      exact hr
    · rw [Value.write?_write? hw] at hw'
      rw [← hw']
      -- The elements before `i` are done, the one at `i` is settled, and the rest merges.
      have htake : (items.take i ++ item :: items.drop (i + 1)).take (i + 1)
          = items.take i ++ [item] := by
        rw [List.take_append, hlen, List.take_of_length_le (by rw [hlen]; omega),
          Nat.add_sub_cancel_left]
        rfl
      have hdrop : (items.take i ++ item :: items.drop (i + 1)).drop (i + 1)
          = items.drop (i + 1) := by
        rw [List.drop_append, hlen, List.drop_of_length_le (by rw [hlen]; omega),
          Nat.add_sub_cancel_left]
        rfl
      -- The element at `i` merges, or it comes after the last one and is added.
      have hmerge : Value.mergeItems (items.drop i) (v :: rest)
          = item :: Value.mergeItems (items.drop (i + 1)) rest := by
        by_cases hlt : i < items.length
        · have hitem : item = items[i].merge v := by
            show settled items[i]? v = _
            rw [List.getElem?_eq_getElem hlt]
            rfl
          rw [List.drop_eq_getElem_cons hlt, Value.mergeItems, hitem]
        · have hitem : item = v := by
            show settled items[i]? v = _
            rw [List.getElem?_eq_none (by omega)]
            rfl
          rw [List.drop_of_length_le (by omega), List.drop_of_length_le (by omega), mergeItems_nil,
            mergeItems_nil, hitem]
      rw [htake, hdrop, hmerge, List.append_assoc]
      rfl

/-- Fields merge, one after the other.  Each entry settles the field of its name, or adds it. -/
theorem overlayFields_of_get? : (more : List (String × Value)) → Value.OrderedFields more →
    {doc : Document} → (path : Path) → {fields : Fields Value} → doc.InShape →
    doc.toValue.get? path = some (.object fields) →
    ∃ doc', (overlayFields path more doc).value = (.ok (), doc') ∧ doc'.InShape ∧
      doc.toValue.write? path (.object (Value.mergeFields fields more)) = some doc'.toValue
  | [], _, doc, path, fields, h, ht => by
    refine ⟨doc, rfl, h, ?_⟩
    rw [Value.mergeFields]
    exact Value.write?_self h.ordered ht
  | (name, v) :: rest, ho, doc, path, fields, h, ht => by
    -- Writing a field of an object always succeeds, so there is only one way to go on.
    have hplace : (Value.object fields).place? (.field name)
        (settled (Fields.find? name fields) v)
        = some (.object (Fields.insert name (settled (Fields.find? name fields) v) fields)) := rfl
    obtain ⟨next, he, hs, hw⟩ := overlayEntry_of_get? h ho.1 ht hplace
      fun x hx hk => overlay_of_get? v ho.1 (path ++ [.field name]) h hx hk
    have hnext := Value.get?_of_write? hw []
    rw [List.append_nil] at hnext
    obtain ⟨doc', hr, hs', hw'⟩ := overlayFields_of_get? rest ho.2 path hs hnext
    refine ⟨doc', ?_, hs', ?_⟩
    · rw [overlayFields, value_bind_ok he]
      exact hr
    · rw [Value.write?_write? hw] at hw'
      rw [Value.mergeFields]
      exact hw'

end

/-- Where there is no part of its kind, a source that has something to add fails before anything is
changed.  It is enough to look at the first entry: its key is of a form that the value at the path
does not take, or the path leads nowhere. -/
theorem overlay_of_not_alike {source : Value} (h : doc.InShape) (ho : source.Ordered)
    (hparts : source.hasParts = true)
    (ht : ∀ target, doc.toValue.get? path = some target → target.kind ≠ source.kind) :
    ∃ e, (overlay path source doc).value = (.error e, doc) := by
  -- A key of a container of another kind leads nowhere and takes no value.
  have hentry : ∀ key v, v.Ordered →
      (∀ target, doc.toValue.get? path = some target →
        target.part? key = none ∧ target.place? key v = none) →
      ∀ merge, ∃ e, (overlayEntry (path ++ [key]) v merge doc).value = (.error e, doc) := by
    intro key v hv hkey merge
    refine overlayEntry_of_unwritable h hv ?_ ?_
    · rw [Value.get?_append]
      cases hc : doc.toValue.get? path with
      | none => rfl
      | some target =>
        show (target.part? key).bind _ = none
        rw [(hkey target hc).1]
        rfl
    · rw [Value.write?_concat]
      cases hc : doc.toValue.get? path with
      | none => rfl
      | some target =>
        rw [Option.bind_some, (hkey target hc).2]
        rfl
  cases source with
  | scalar s => cases hparts
  | array more =>
    cases more with
    | nil => cases hparts
    | cons v rest =>
      obtain ⟨e, he⟩ := hentry (.index 0) v ho.1 (fun target hc => by
        have hne := ht target hc
        cases target with
        | scalar s => exact ⟨rfl, rfl⟩
        | object fields => exact ⟨rfl, rfl⟩
        | array items => exact absurd rfl hne) (overlay (path ++ [.index 0]) v)
      refine ⟨e, ?_⟩
      rw [overlay, overlayItems, value_bind, he]
  | object more =>
    cases more with
    | nil => cases hparts
    | cons entry rest =>
      obtain ⟨name, v⟩ := entry
      obtain ⟨e, he⟩ := hentry (.field name) v ho.2.1 (fun target hc => by
        have hne := ht target hc
        cases target with
        | scalar s => exact ⟨rfl, rfl⟩
        | array items => exact ⟨rfl, rfl⟩
        | object fields => exact absurd rfl hne) (overlay (path ++ [.field name]) v)
      refine ⟨e, ?_⟩
      rw [overlay, overlayFields, value_bind, he]

/-- A source without parts changes nothing. -/
theorem overlay_of_not_hasParts {source : Value} (hparts : source.hasParts = false) (path : Path)
    (doc : Document) : (overlay path source doc).value = (.ok (), doc) := by
  cases source with
  | scalar s => rfl
  | array more =>
    cases more with
    | nil => rfl
    | cons v rest => cases hparts
  | object more =>
    cases more with
    | nil => rfl
    | cons entry rest => cases hparts

/-- An overlay mirrors the overlay of the value: without parts nothing is done, on a value of the
same kind it merges, and everywhere else it fails. -/
theorem mirrors_overlay (path : Path) {source : Value} (ho : source.Ordered) :
    Mirrors (overlay path source) (Value.overlay? path source) := by
  intro doc h
  rw [Value.overlay?]
  cases hparts : source.hasParts with
  | false =>
    rw [overlay_of_not_hasParts hparts]
    exact ⟨h, rfl⟩
  | true =>
    have hfail : (∀ target, doc.toValue.get? path = some target → target.kind ≠ source.kind) →
        ((doc.toValue.get? path).bind fun target =>
          if target.kind = source.kind then doc.toValue.write? path (target.merge source)
          else none) = none := by
      intro hne
      cases hc : doc.toValue.get? path with
      | none => rfl
      | some target => exact if_neg (hne target hc)
    -- What decides is whether the path leads to a value of the same kind.
    by_cases halike : ∃ target, doc.toValue.get? path = some target ∧ target.kind = source.kind
    · obtain ⟨target, ht, hk⟩ := halike
      obtain ⟨doc', hd, hs, hw⟩ := overlay_of_get? source ho path h ht hk
      rw [hd]
      refine ⟨hs, ?_⟩
      rw [if_pos rfl, ht, Option.bind_some, if_pos hk]
      exact hw
    · have hne : ∀ target, doc.toValue.get? path = some target → target.kind ≠ source.kind :=
        fun target ht hk => halike ⟨target, ht, hk⟩
      obtain ⟨e, hd⟩ := overlay_of_not_alike h ho hparts hne
      rw [hd, if_pos rfl]
      exact hfail hne

end Document

end Expansion
