import Expansion.Path
import Expansion.Value

/-!
  Values by path.

  Here a value is read, written and removed at a path by following the path down, without errors
  and without handles.  A step leads into an object by a name and into an array by a position, and
  nowhere else.  Writing needs the container only: a missing field is added, and an element beyond
  the end of an array comes after nulls.  `get?_append` says that a path is followed step by step.
-/

namespace Expansion.Value

/-- The part under a key. -/
def part? (key : Key) : Value → Option Value
  | object fields => key.name?.bind fun name => Fields.find? name fields
  | array items => key.index?.bind fun i => items[i]?
  | scalar _ => none

/-- The value at a path. -/
def get? : Path → Value → Option Value
  | [], v => some v
  | key :: rest, v => (v.part? key).bind (get? rest)

/-- Elements with `w` at position `i`, after nulls if that is beyond the end. -/
def placeItem (i : Nat) (w : Value) (items : List Value) : List Value :=
  if i < items.length then items.set i w
  else items ++ List.replicate (i - items.length) null ++ [w]

/-- Puts `w` under a key. -/
def place? (v : Value) (key : Key) (w : Value) : Option Value :=
  match v with
  | object fields => key.name?.map fun name => object (Fields.insert name w fields)
  | array items => key.index?.map fun i => array (placeItem i w items)
  | scalar _ => none

/-- Writes `w` at a path; all but the last step must resolve. -/
def write? : (v : Value) → Path → (w : Value) → Option Value
  | _, [], w => some w
  | v, [key], w => v.place? key w
  | v, key :: next :: rest, w => do
    let part ← v.part? key
    v.place? key (← part.write? (next :: rest) w)

/-- Takes out the part under a key. -/
def drop? (key : Key) : Value → Option Value
  | object fields => do
    let name ← key.name?
    let _ ← Fields.find? name fields
    return object (Fields.erase name fields)
  | array items => do
    let i ← key.index?
    if i < items.length then some (array (items.eraseIdx i)) else none
  | scalar _ => none

/-- Removes the value at a path, which must resolve and is not the whole. -/
def remove? : Path → Value → Option Value
  | [], _ => none
  | [key], v => v.drop? key
  | key :: next :: rest, v => do v.place? key (← remove? (next :: rest) (← v.part? key))

@[simp] theorem get?_nil (v : Value) : get? [] v = some v := rfl

/-- A path is followed step by step. -/
theorem get?_append (p q : Path) (v : Value) : get? (p ++ q) v = (get? p v).bind (get? q) := by
  induction p generalizing v with
  | nil => rfl
  | cons key rest ih =>
    show (v.part? key).bind (get? (rest ++ q)) = ((v.part? key).bind (get? rest)).bind (get? q)
    cases h : v.part? key with
    | none => rfl
    | some w => exact ih w

/-- Only containers have parts. -/
theorem isContainer_of_part? {key : Key} {v w : Value} (h : v.part? key = some w) :
    v.kind.isContainer = true := by
  cases v with
  | scalar s => simp [part?] at h
  | array items => rfl
  | object fields => rfl

end Expansion.Value
