import Expansion.Document.Edit

/-!
  Overlaying a value on a document.

  The document wins: what it already holds at a key of the source stays, unless both sides are
  objects, or both arrays, which merge in turn.  What it does not hold is written.  A scalar source
  has no keys and changes nothing.
-/

namespace Expansion.Document

/-- What the document holds at a path: the kind found there, or nothing; any other failure is an
error. -/
def existing (doc : Document) (path : Path) : Except DocumentError (Option Kind) :=
  match doc.get path with
  | .ok h => (doc.kind h).map some
  | .error e => if e.isPathNotFound then .ok none else .error e

/-- Brings one value of the source to what the document holds at `path`; `merge` is how the value
merges into a container of its own kind. -/
def overlayEntry (path : Path) (v : Value) (merge : Edit DocumentError Unit) :
    Edit DocumentError Unit := do
  match ← Edit.lift ((← Edit.current).existing path) with
  | some kind =>
    if kind.isContainer && kind == v.kind then merge
    else Edit.note .trace "Overlay keeps existing value" [("path", path.describe)]
  | none =>
    let _ ← set path v

mutual

/-- Merges `source` into the node at `path`. -/
def overlay (path : Path) : (source : Value) → Edit DocumentError Unit
  | .scalar _ => pure ()
  | .array items => overlayItems path 0 items
  | .object fields => overlayFields path fields

/-- Merges the elements of an array, counted from `i`. -/
def overlayItems (path : Path) (i : Nat) : List Value → Edit DocumentError Unit
  | [] => pure ()
  | v :: rest => do
    let path' := path ++ [.index i]
    overlayEntry path' v (overlay path' v)
    overlayItems path (i + 1) rest

/-- Merges the fields of an object. -/
def overlayFields (path : Path) : List (String × Value) → Edit DocumentError Unit
  | [] => pure ()
  | (name, v) :: rest => do
    let path' := path ++ [.field name]
    overlayEntry path' v (overlay path' v)
    overlayFields path rest

end

end Expansion.Document
