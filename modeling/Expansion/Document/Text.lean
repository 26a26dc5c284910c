import Expansion.Document.Basic
import Expansion.Json.Writer

/-!
  The JSON text of a document, written from its slots.

  No value is built on the way.  The slots are read from the root down, each when its turn comes,
  and one that is empty then is an error, whatever has been written before it.
-/

namespace Expansion.Document

variable {σ ε : Type}

/-- Writes the node with a handle and what is below it, with at most so many levels. -/
def serializeWithin (doc : Document) (S : Serializer σ ε) :
    (levels : Nat) → (h : Nat) → σ → Except ε σ
  | 0, h, _ => .error (S.unreadable (DocumentError.staleNode h).message)
  | levels + 1, h, state =>
    match doc.slot h with
    | .error e => .error (S.unreadable e.message)
    | .ok slot =>
      match slot.content with
      | .scalar s => S.scalar s state
      | .array items => do
        let state ← S.beginArray items.length state
        let state ← items.foldlM
          (fun state part => S.element (doc.serializeWithin S levels part) state) state
        S.endArray state
      | .object fields => do
        let state ← S.beginObject fields.length state
        let state ← fields.foldlM
          (fun state (name, part) => S.field name (doc.serializeWithin S levels part) state) state
        S.endObject state

/-- Writes the node with a handle.  Parts are issued after their container, so a document has no
more levels than slots. -/
def serializeNode (doc : Document) (S : Serializer σ ε) (h : Nat) : σ → Except ε σ :=
  doc.serializeWithin S doc.slots.size h

/-- Writes a document from its root. -/
def serialize (doc : Document) (S : Serializer σ ε) : σ → Except ε σ := doc.serializeNode S doc.top

/-- The compact JSON text of a document, or in words why it cannot be written. -/
def toJson (doc : Document) : Except String String :=
  (doc.serialize Json.compact .start).map Json.Writer.text

/-- The compact JSON text of a document.  Only a document with a stale handle in it has none. -/
def text (doc : Document) : String := doc.toJson.toOption.getD ""

end Expansion.Document
