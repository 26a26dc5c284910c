import Expansion.Json.Printer
import Expansion.Serializer

/-!
  Writing compact JSON text piece by piece.

  The writer appends to a text and keeps a stack of the open containers.  A container that is
  announced without parts is closed at once; in any other a comma goes before all parts but the
  first.
-/

namespace Expansion.Json

/-- How far an open container is. -/
inductive Progress
  /-- It was announced without parts and is closed in the text already. -/
  | closed
  /-- None of its parts is written. -/
  | fresh
  /-- Some of its parts are written. -/
  | started
  deriving DecidableEq, Repr

/-- A text in the making, and the open containers, innermost first. -/
structure Writer where
  text : String
  containers : List Progress
  deriving DecidableEq, Repr

namespace Writer

/-- Nothing is written yet. -/
def start : Writer := ⟨"", []⟩

/-- Appends to the text. -/
def put (chars : List Char) (w : Writer) : Writer :=
  { w with text := w.text ++ String.ofList chars }

/-- Opens a container that is announced with so many parts. -/
def enter (opening closing : Char) (length : Nat) (w : Writer) : Writer :=
  if length = 0 then { w.put [opening, closing] with containers := .closed :: w.containers }
  else { w.put [opening] with containers := .fresh :: w.containers }

/-- Comes to the next part of the innermost container: a comma goes before all but the first. -/
def next (w : Writer) : Writer :=
  let comma := if w.containers.head? = some .fresh then [] else [',']
  { w.put comma with containers := .started :: w.containers.tail }

/-- Leaves the innermost container, and closes it if it is not closed yet. -/
def leave (closing : Char) (w : Writer) : Writer :=
  let rest := if w.containers.head? = some .closed then [] else [closing]
  { w.put rest with containers := w.containers.tail }

end Writer

/-- Compact JSON text.  An error is its words. -/
def compact : Serializer Writer String where
  scalar s w := .ok (w.put (encodeScalar s))
  beginArray length w := .ok (w.enter '[' ']' length)
  element write w := write w.next
  endArray w := .ok (w.leave ']')
  beginObject length w := .ok (w.enter '\x7b' '\x7d' length)
  field name write w := write (w.next.put (encodeText name ++ [':']))
  endObject w := .ok (w.leave '\x7d')
  unreadable message := message

end Expansion.Json
