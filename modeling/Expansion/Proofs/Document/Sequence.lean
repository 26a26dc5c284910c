import Expansion.Document.Overlay
import Expansion.Proofs.Value.Keys

/-!
  Sequences of changes, without their journal.

  An edit is a function from a document to an answer, the document that is left, and the entries
  that were written on the way.  What it answers and leaves does not depend on the entries, and the
  lemmas whose names start with value say so for every way of building an edit: a step that
  succeeds hands its document to the next one, and a step that fails ends the sequence with the
  document as it then is (`value_bind`).

  `Keeps` says that a sequence preserves an invariant whatever it answers; a sequence of steps that
  preserve it does so too (`keeps_bind`).  The changes of a document are single steps of this kind
  (`keeps_change`, `keeps_set`).  An overlay is a sequence of writes of parts of its source, so it
  preserves what these writes preserve (`keeps_overlay`, by induction on the source).
-/

namespace Expansion

namespace Edit

variable {ε ε' α β : Type}

/-- An edit that only answers leaves the document. -/
@[simp] theorem value_pure (a : α) (doc : Document) :
    ((pure a : Edit ε α) doc).value = (.ok a, doc) := rfl

/-- The second step runs on what the first one leaves, with its answer; after an error it does not
run. -/
theorem value_bind (x : Edit ε α) (f : α → Edit ε β) (doc : Document) :
    ((x >>= f) doc).value =
      match (x doc).value with
      | (.ok a, doc') => (f a doc').value
      | (.error e, doc') => (.error e, doc') := by
  simp only [bind_apply, Logged.value_bind]
  obtain ⟨result, doc'⟩ := (x doc).value
  cases result with
  | ok a => rfl
  | error e => rfl

/-- After a step that answers, the sequence is its second step. -/
theorem value_bind_ok {x : Edit ε α} {f : α → Edit ε β} {doc doc' : Document} {a : α}
    (h : (x doc).value = (.ok a, doc')) : ((x >>= f) doc).value = (f a doc').value := by
  rw [value_bind, h]

/-- An edit that only fails leaves the document. -/
@[simp] theorem value_fail (e : ε) (doc : Document) :
    ((fail e : Edit ε α) doc).value = (.error e, doc) := rfl

/-- The document itself can be looked at. -/
@[simp] theorem value_current (doc : Document) :
    ((current : Edit ε Document) doc).value = (.ok doc, doc) := rfl

/-- A result that was found elsewhere is taken over as it is. -/
@[simp] theorem value_lift (result : Except ε α) (doc : Document) :
    (lift result doc).value = (result, doc) := rfl

/-- A computation beside the document gives its result and leaves the document. -/
@[simp] theorem value_run (x : Logged (Except ε α)) (doc : Document) :
    (run x doc).value = (x.value, doc) := rfl

/-- A note answers nothing and leaves the document. -/
@[simp] theorem value_note (level : Level) (message : String) (details : List (String × String))
    (doc : Document) : ((note level message details : Edit ε Unit) doc).value = (.ok (), doc) := rfl

/-- An error may be told differently; the answers and the document stay. -/
@[simp] theorem value_mapError (f : ε → ε') (x : Edit ε α) (doc : Document) :
    (mapError f x doc).value = ((x doc).value.1.mapError f, (x doc).value.2) := rfl

/-- Writing about an error changes neither the answer nor the document. -/
@[simp] theorem value_onError (x : Edit ε α) (report : ε → Logged Unit) (doc : Document) :
    (onError x report doc).value = (x doc).value := by
  simp only [onError, Logged.value_bind]
  split <;> rfl

/-- A note before a step can be left out. -/
theorem value_note_bind (level : Level) (message : String) (details : List (String × String))
    (f : Unit → Edit ε α) (doc : Document) :
    ((note level message details >>= f) doc).value = (f () doc).value := rfl

/-- A step that looks at the document is given the document. -/
theorem value_current_bind (f : Document → Edit ε α) (doc : Document) :
    ((current >>= f) doc).value = (f doc doc).value := rfl

/-! ## Invariants -/

/-- What holds of the document before the sequence holds of it after, answer or error. -/
def Keeps (invariant : Document → Prop) (x : Edit ε α) : Prop :=
  ∀ doc, invariant doc → invariant (x doc).value.2

variable {I : Document → Prop}

/-- Answering preserves anything. -/
theorem keeps_pure (a : α) : Keeps I (pure a : Edit ε α) := fun _ h => h

/-- Looking preserves anything. -/
theorem keeps_current : Keeps I (current : Edit ε Document) := fun _ h => h

/-- A result from elsewhere preserves anything. -/
theorem keeps_lift (result : Except ε α) : Keeps I (lift result) := fun _ h => h

/-- Writing an entry preserves anything. -/
theorem keeps_note (level : Level) (message : String) (details : List (String × String)) :
    Keeps I (note level message details : Edit ε Unit) := fun _ h => h

/-- Steps that preserve an invariant make a sequence that does.  If the first one fails, its
document is the last one. -/
theorem keeps_bind {x : Edit ε α} {f : α → Edit ε β} (hx : Keeps I x) (hf : ∀ a, Keeps I (f a)) :
    Keeps I (x >>= f) := by
  intro doc h
  have hx := hx doc h
  rw [value_bind]
  match hv : (x doc).value with
  | (.ok a, doc') => exact hf a doc' (by rwa [hv] at hx)
  | (.error e, doc') => rwa [hv] at hx

end Edit

namespace Document

open Edit

/-! ## Single changes -/

/-- A change that fails leaves the document as it was, since its result is not taken over. -/
@[simp] theorem value_change {ε α : Type} (f : Document → Except ε (α × Document))
    (doc : Document) :
    (change f doc).value =
      match f doc with
      | .ok (a, doc) => (.ok a, doc)
      | .error e => (.error e, doc) := rfl

/-- A change that answers is carried out. -/
theorem value_change_eq_ok_iff {ε α : Type} {f : Document → Except ε (α × Document)}
    {doc doc' : Document} {a : α} :
    (change f doc).value = (.ok a, doc') ↔ f doc = .ok (a, doc') := by
  rw [value_change]
  rcases f doc with e | ⟨b, d⟩ <;> simp

/-- A write by path, as an edit: what it writes into the journal on the way does not matter. -/
theorem value_set (path : Path) (v : Value) (doc : Document) :
    (set path v doc).value =
      match doc.write path v with
      | .ok (h, doc) => (.ok h, doc)
      | .error e => (.error e, doc) := by
  have hc : ((change fun doc => doc.write path v) doc).value = (set path v doc).value := by
    simp only [set, value_current_bind]
    split <;> rfl
  rw [← hc, value_change]
  cases doc.write path v <;> rfl

/-- A write that answers is carried out. -/
theorem value_set_eq_ok_iff {path : Path} {v : Value} {doc doc' : Document} {k : Nat} :
    (set path v doc).value = (.ok k, doc') ↔ doc.write path v = .ok (k, doc') := by
  rw [value_set]
  rcases doc.write path v with e | ⟨j, d⟩ <;> simp

/-- A removal by path, as an edit. -/
theorem value_delete (path : Path) (doc : Document) :
    (delete path doc).value =
      match doc.remove path with
      | .ok (v, doc) => (.ok v, doc)
      | .error e => (.error e, doc) := by
  rw [delete, value_change]
  cases doc.remove path <;> rfl

/-- A change preserves what its successes preserve. -/
theorem keeps_change {ε α : Type} {I : Document → Prop} {f : Document → Except ε (α × Document)}
    (h : ∀ doc a doc', I doc → f doc = .ok (a, doc') → I doc') : Keeps I (change f) := by
  intro doc hI
  rw [value_change]
  match hf : f doc with
  | .ok (a, doc') => exact h doc a doc' hI hf
  | .error e => exact hI

/-- A write preserves what its successes preserve. -/
theorem keeps_set {I : Document → Prop} {path : Path} {v : Value}
    (h : ∀ doc k doc', I doc → doc.write path v = .ok (k, doc') → I doc') :
    Keeps I (set path v) := by
  intro doc hI
  rw [value_set]
  match hw : doc.write path v with
  | .ok (k, doc') => exact h doc k doc' hI hw
  | .error e => exact hI

/-! ## Overlays -/

section

variable {I : Document → Prop} {ok : String → Prop}

/-- At one key an overlay writes, or merges further down, or passes over; so it preserves what the
write and the merge preserve. -/
theorem keeps_overlayEntry {path : Path} {v : Value} {merge : Edit DocumentError Unit}
    (hset : Keeps I (set path v)) (hmerge : Keeps I merge) :
    Keeps I (overlayEntry path v merge) := by
  refine keeps_bind keeps_current fun doc => keeps_bind (keeps_lift _) fun found => ?_
  -- Whether the key is there has been looked up; it decides what is done.
  cases found with
  | none => exact keeps_bind hset fun _ => keeps_pure ()
  | some kind =>
    show Keeps I (if _ then _ else _)
    split
    · exact hmerge
    · exact keeps_note _ _ _

/-- The writes of an overlay: at a key under some path, a part of the source. -/
def KeepsWrites (I : Document → Prop) (ok : String → Prop) : Prop :=
  ∀ (path : Path) (key : Key) (v : Value), (∀ name, key = .field name → ok name) → v.Ordered →
    v.EveryKey ok → Keeps I (set (path ++ [key]) v)

mutual

/-- An overlay preserves what writes of parts of the source preserve.  The induction is on the
source; its parts are in order and have good names because the source is and has. -/
theorem keeps_overlay (hset : KeepsWrites I ok) (path : Path) :
    (source : Value) → source.Ordered → source.EveryKey ok → Keeps I (overlay path source)
  | .scalar _, _, _ => keeps_pure ()
  | .array items, ho, hk => keeps_overlayItems hset path 0 items ho hk
  | .object fields, ho, hk => keeps_overlayFields hset path fields ho.2 hk

/-- The elements of an array from a position on, one after the other. -/
theorem keeps_overlayItems (hset : KeepsWrites I ok) (path : Path) (i : Nat) :
    (items : List Value) → Value.OrderedItems items → Value.EveryKeyItems ok items →
      Keeps I (overlayItems path i items)
  | [], _, _ => keeps_pure ()
  | v :: rest, ho, hk =>
    keeps_bind
      (keeps_overlayEntry (hset path _ v (fun _ e => nomatch e) ho.1 hk.1)
        (keeps_overlay hset _ v ho.1 hk.1))
      fun _ => keeps_overlayItems hset path (i + 1) rest ho.2 hk.2

/-- The fields of an object, one after the other. -/
theorem keeps_overlayFields (hset : KeepsWrites I ok) (path : Path) :
    (fields : List (String × Value)) → Value.OrderedFields fields →
      Value.EveryKeyFields ok fields → Keeps I (overlayFields path fields)
  | [], _, _ => keeps_pure ()
  | (_, v) :: rest, ho, hk =>
    keeps_bind
      (keeps_overlayEntry
        (hset path _ v (fun _ e => Key.field.inj e ▸ hk.1) ho.1 hk.2.1)
        (keeps_overlay hset _ v ho.1 hk.2.1))
      fun _ => keeps_overlayFields hset path rest ho.2 hk.2.2

end

end

end Document

end Expansion
