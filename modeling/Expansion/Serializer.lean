import Expansion.Value

/-!
  Writing values, whatever they are written to.

  A `Serializer` says what is done for a scalar, at the start of a container, for each of its parts
  and at its end.  A container is announced with the number of its parts.  What is done for a part
  is given the writing of that part, so that something can be written before it, after it or in its
  place.  `Value.serialize` writes a value, part by part.
-/

namespace Expansion

/-- A way to write values.  `σ` is what has been written so far, and writing may fail. -/
structure Serializer (σ ε : Type) where
  scalar : Scalar → σ → Except ε σ
  /-- Starts an array of so many elements. -/
  beginArray : (length : Nat) → σ → Except ε σ
  element : (write : σ → Except ε σ) → σ → Except ε σ
  endArray : σ → Except ε σ
  /-- Starts an object of so many fields. -/
  beginObject : (length : Nat) → σ → Except ε σ
  field : (name : String) → (write : σ → Except ε σ) → σ → Except ε σ
  endObject : σ → Except ε σ
  /-- The error for something that cannot be read, in these words. -/
  unreadable : (message : String) → ε

namespace Value

variable {σ ε : Type}

mutual

/-- Writes a value. -/
def serialize (S : Serializer σ ε) : Value → σ → Except ε σ
  | scalar s, state => S.scalar s state
  | array items, state => do
    let state ← S.beginArray items.length state
    let state ← serializeItems S items state
    S.endArray state
  | object fields, state => do
    let state ← S.beginObject fields.length state
    let state ← serializeFields S fields state
    S.endObject state

/-- Writes the elements of an array. -/
def serializeItems (S : Serializer σ ε) : List Value → σ → Except ε σ
  | [], state => .ok state
  | v :: rest, state => do
    let state ← S.element (serialize S v) state
    serializeItems S rest state

/-- Writes the fields of an object. -/
def serializeFields (S : Serializer σ ε) : List (String × Value) → σ → Except ε σ
  | [], state => .ok state
  | (name, v) :: rest, state => do
    let state ← S.field name (serialize S v) state
    serializeFields S rest state

end

end Value

end Expansion
