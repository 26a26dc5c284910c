import Expansion.Document.Build
import Expansion.Journal

/-!
  Changing a document.

  Overwriting a node keeps its handle and gives new handles to its parts.  A new field, and a new
  element at the end of an array, get new handles; an element beyond the end is preceded by nulls.
  A removed node takes its parts along.  No handle is issued twice.

  `write`, `overwrite`, `remove` and `removeNode` are single changes: they fail without a trace or
  return the changed document.  `Edit` is a sequence of changes that keeps what was done before a
  failure.
-/

namespace Expansion

/-! ## Sequences of changes -/

/-- A sequence of changes with an answer or an error.  The document goes on from wherever the
sequence ended. -/
def Edit (ε α : Type) : Type := Document → Logged (Except ε α × Document)

namespace Edit

variable {ε ε' α β : Type}

instance : Monad (Edit ε) where
  pure a := fun doc => pure (.ok a, doc)
  bind x f := fun doc => do
    match ← x doc with
    | (.ok a, doc) => f a doc
    | (.error e, doc) => pure (.error e, doc)

/-- Stops with an error. -/
def fail (e : ε) : Edit ε α := fun doc => pure (.error e, doc)

/-- The document as it is. -/
def current : Edit ε Document := fun doc => pure (.ok doc, doc)

/-- An answer or error that changes nothing. -/
def lift (result : Except ε α) : Edit ε α := fun doc => pure (result, doc)

/-- A computation that changes nothing. -/
def run (x : Logged (Except ε α)) : Edit ε α := fun doc => do
  let result ← x
  pure (result, doc)

/-- An entry of the journal. -/
def note (level : Level) (message : String) (details : List (String × String)) : Edit ε Unit :=
  fun doc => do
    Logged.note level message details
    pure (.ok (), doc)

/-- Says of every error what it means to the caller. -/
def mapError (f : ε → ε') (x : Edit ε α) : Edit ε' α := fun doc => do
  let (result, doc) ← x doc
  pure (result.mapError f, doc)

/-- Reports the error of a failing sequence in the journal. -/
def onError (x : Edit ε α) (report : ε → Logged Unit) : Edit ε α := fun doc => do
  let (result, doc) ← x doc
  match result with
  | .ok _ => pure ()
  | .error e => report e
  pure (result, doc)

@[simp] theorem pure_apply (a : α) (doc : Document) :
    (pure a : Edit ε α) doc = pure (.ok a, doc) := rfl

theorem bind_apply (x : Edit ε α) (f : α → Edit ε β) (doc : Document) :
    (x >>= f) doc = (x doc >>= fun
      | (.ok a, doc) => f a doc
      | (.error e, doc) => pure (.error e, doc)) := rfl

@[simp] theorem fail_apply (e : ε) (doc : Document) :
    (fail e : Edit ε α) doc = pure (.error e, doc) := rfl

@[simp] theorem lift_apply (result : Except ε α) (doc : Document) :
    (lift result : Edit ε α) doc = pure (result, doc) := rfl

@[simp] theorem current_apply (doc : Document) :
    (current : Edit ε Document) doc = pure (.ok doc, doc) := rfl

end Edit

/-! ## Releasing slots -/

namespace Content

/-- Without the part that has a handle. -/
def remove (h : Nat) : Content → Content
  | scalar s => scalar s
  | array items => array (items.filter (· ≠ h))
  | object fields => object (fields.filter fun entry => entry.2 ≠ h)

/-- With one more field. -/
def insertField (name : String) (h : Nat) : Content → Content
  | object fields => object (Fields.insert name h fields)
  | content => content

/-- With more elements at the end. -/
def appendItems (added : List Nat) : Content → Content
  | array items => array (items ++ added)
  | content => content

end Content

namespace Document

/-- The number of slots that are not empty. -/
def occupied (doc : Document) : Nat := doc.slots.countP Option.isSome

/-- Empties a slot. -/
def vacate (h : Nat) (doc : Document) : Document :=
  { doc with slots := doc.slots.setIfInBounds h none, live := doc.live - 1 }

/-- Emptying a slot in use leaves fewer in use. -/
theorem occupied_vacate_lt {doc : Document} {h : Nat} {slot : Slot} (hs : doc.slot? h = some slot) :
    (doc.vacate h).occupied < doc.occupied := by
  obtain ⟨hlt, hat⟩ := Array.getElem?_eq_some_iff.mp (Option.join_eq_some_iff.mp hs)
  have hpos : 0 < doc.slots.countP Option.isSome :=
    Array.countP_pos_iff.mpr ⟨_, Array.getElem_mem hlt, by simp [hat]⟩
  simp only [occupied, vacate, Array.setIfInBounds, dif_pos hlt, Array.countP_set hlt, hat]
  simp only [Option.isSome_some, Option.isSome_none, if_true]
  exact Nat.sub_lt hpos Nat.one_pos

/-- Empties the slots of nodes and of all their parts, depth first. -/
def release (doc : Document) : List Nat → Document
  | [] => doc
  | h :: rest =>
    match _hs : doc.slot? h with
    | none => doc.release rest
    | some slot => (doc.vacate h).release (slot.content.parts ++ rest)
termination_by handles => (doc.occupied, handles.length)
decreasing_by
  · exact Prod.Lex.right _ (Nat.lt_succ_self _)
  · exact Prod.Lex.left _ _ (occupied_vacate_lt _hs)

/-! ## Single changes of a document -/

/-- Where a write takes place. -/
inductive Place
  /-- In an existing node. -/
  | overwrite (h : Nat)
  /-- In a new field. -/
  | newField (name : String)
  /-- In a new element, after this many nulls. -/
  | newItem (padding : Nat)
  deriving DecidableEq, Repr

/-- Where a value written under `key` of a node goes.  `before` is the path of the node. -/
def place (doc : Document) (before : Path) (key : Key) (h : Nat) : Except DocumentError Place := do
  match (← doc.slot h).content, key with
  | .object fields, .field name =>
    match Fields.find? name fields with
    | some existing => return .overwrite existing
    | none => return .newField name
  | .array items, .index i =>
    match items[i]? with
    | some existing => return .overwrite existing
    | none => return .newItem (i - items.length)
  | _, _ =>
    let _ ← doc.step before key h
    throw (.pathNotFound (before ++ [key]).text)

/-- Overwrites a node, which keeps its handle; its parts are released. -/
def overwrite (doc : Document) (h : Nat) (v : Value) : Except DocumentError Document := do
  let old := (← doc.slot h).content
  let (content, doc) := build h v (doc.release old.parts)
  let _ ← doc.slot h
  return doc.update h fun _ => content

/-- Carries out a write in a container; the handle of the written node comes first. -/
def writeAt (doc : Document) (container : Nat) (v : Value) :
    Place → Except DocumentError (Nat × Document)
  | .overwrite h => (doc.overwrite h v).map fun doc => (h, doc)
  | .newField name =>
    let (h, doc) := doc.alloc (some container) v
    .ok (h, doc.update container (Content.insertField name h))
  | .newItem padding =>
    let (nulls, doc) := doc.buildItems container (List.replicate padding .null)
    let (h, doc) := doc.alloc (some container) v
    .ok (h, doc.update container (Content.appendItems (nulls ++ [h])))

/-- Where a value written at a path goes, and the container that it goes into. -/
def placeAt (doc : Document) (path : Path) : Except DocumentError (Nat × Place) :=
  match path.getLast? with
  | none => .ok (doc.top, .overwrite doc.top)
  | some key => do
    let container ← doc.get path.dropLast
    return (container, ← doc.place path.dropLast key container)

/-- Writes a value at a path; the container must exist.  The handle of the written node comes
first. -/
def write (doc : Document) (path : Path) (v : Value) : Except DocumentError (Nat × Document) := do
  let (container, place) ← doc.placeAt path
  doc.writeAt container v place

/-- Removes the node with a handle and returns its value. -/
def removeNode (doc : Document) (h : Nat) : Except DocumentError (Value × Document) := do
  match (← doc.slot h).parent with
  | none => throw .rootDelete
  | some container =>
    let removed ← doc.value h
    let _ ← doc.slot container
    return (removed, (doc.update container (Content.remove h)).release [h])

/-- Removes the node at a path and returns its value. -/
def remove (doc : Document) (path : Path) : Except DocumentError (Value × Document) :=
  if path.isEmpty then .error .rootDelete
  else do doc.removeNode (← doc.get path)

/-! ## Changes as edits -/

/-- A single change as an edit. -/
def change {ε α : Type} (f : Document → Except ε (α × Document)) : Edit ε α := fun doc =>
  pure <|
    match f doc with
    | .ok (a, doc) => (.ok a, doc)
    | .error e => (.error e, doc)

/-- The number of nulls that a write at a path would add. -/
def padding (doc : Document) (path : Path) : Nat :=
  match doc.placeAt path with
  | .ok (_, .newItem padding) => padding
  | _ => 0

/-- Writes a value at a path and returns the handle of the written node. -/
def set (path : Path) (v : Value) : Edit DocumentError Nat := do
  let doc ← Edit.current
  let padding := doc.padding path
  if 0 < padding then
    Edit.note .trace "Extending array with null gaps"
      [("path", path.text), ("padding", toString padding)]
  change fun doc => doc.write path v

/-- Overwrites the node with a handle. -/
def setNode (h : Nat) (v : Value) : Edit DocumentError Unit :=
  change fun doc => (doc.overwrite h v).map fun doc => ((), doc)

/-- Removes the node at a path and returns its value. -/
def delete (path : Path) : Edit DocumentError Value :=
  change fun doc => doc.remove path

/-- Removes the node with a handle and returns its value. -/
def deleteNode (h : Nat) : Edit DocumentError Value :=
  change fun doc => doc.removeNode h

end Document

end Expansion
