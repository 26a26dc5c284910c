import Expansion.Document.Error
import Expansion.Document.Node

/-!
  Documents: values kept in slots, so that their parts can be addressed by handle.

  Every part of a document has a slot of its own, numbered by its handle.  The slot of an array or
  an object holds the handles of its parts, and every slot knows the handle of its container.  Slots
  are issued in order and a released slot stays empty, so that no handle is issued twice; a handle
  is stale when its slot is empty.

  Reading by path follows the keys from the root and fails at the first one that does not resolve;
  reading by handle looks at the slot.
-/

namespace Expansion

/-- What a slot holds: a value without parts, or the handles of the parts. -/
inductive Content
  | scalar (s : Scalar)
  | array (items : List Nat)
  | object (fields : Fields Nat)
  deriving DecidableEq, Repr, Inhabited

namespace Content

/-- What the value is. -/
def kind : Content → Kind
  | scalar s => s.kind
  | array _ => .array
  | object _ => .object

/-- The handles of the parts, in order. -/
def parts : Content → List Nat
  | scalar _ => []
  | array items => items
  | object fields => fields.map (·.2)

/-- The parts in order, each under its key. -/
def children : Content → List (Key × Nat)
  | scalar _ => []
  | array items => items.zipIdx.map fun (h, i) => (.index i, h)
  | object fields => fields.map fun (name, h) => (.field name, h)

/-- The key of the part with a handle. -/
def keyOf? (h : Nat) : Content → Option Key
  | scalar _ => none
  | array items => (items.idxOf? h).map .index
  | object fields => (List.find? (fun entry => entry.2 == h) fields).map fun entry => .field entry.1

end Content

/-- A part of a document: the handle of its container, and what it holds. -/
structure Slot where
  parent : Option Nat
  content : Content
  deriving DecidableEq, Repr, Inhabited

/-- A document. -/
structure Document where
  /-- The slots by handle; a released one is empty. -/
  slots : Array (Option Slot)
  /-- The handle of the root. -/
  top : Nat
  /-- The number of slots in use. -/
  live : Nat
  deriving Inhabited

namespace Document

/-- The number of nodes. -/
def len (doc : Document) : Nat := doc.live

/-- A document always has its root. -/
def isEmpty (doc : Document) : Bool := doc.len == 0

/-! ## Reading by handle -/

/-- The slot of a handle that is not stale. -/
def slot? (doc : Document) (h : Nat) : Option Slot := doc.slots[h]?.join

/-- The slot of a handle. -/
def slot (doc : Document) (h : Nat) : Except DocumentError Slot :=
  match doc.slot? h with
  | some slot => .ok slot
  | none => .error (.staleNode h)

/-- What the value of a node is. -/
def kind (doc : Document) (h : Nat) : Except DocumentError Kind :=
  (doc.slot h).map fun slot => slot.content.kind

/-- The container that holds a node; the root has none. -/
def parent (doc : Document) (h : Nat) : Except DocumentError (Option Nat) :=
  (doc.slot h).map Slot.parent

/-- The parts of a node in order, each under its key. -/
def children (doc : Document) (h : Nat) : Except DocumentError (List (Key × Nat)) :=
  (doc.slot h).map fun slot => slot.content.children

/-- Reads a node off, with at most so many levels. -/
def nodeWithin (doc : Document) : (levels : Nat) → (h : Nat) → Except DocumentError Node
  | 0, h => .error (.staleNode h)
  | levels + 1, h => do
    match (← doc.slot h).content with
    | .scalar s => return .scalar h s
    | .array items => return .array h (← items.mapM (doc.nodeWithin levels))
    | .object fields =>
      return .object h (← fields.mapM fun (name, child) =>
        return (name, ← doc.nodeWithin levels child))

/-- The node with a handle.  Parts are issued after their container, so a document has no more
levels than slots. -/
def node (doc : Document) (h : Nat) : Except DocumentError Node :=
  doc.nodeWithin doc.slots.size h

/-- The value of a node. -/
def value (doc : Document) (h : Nat) : Except DocumentError Value :=
  (doc.node h).map Node.value

/-- The root with all its parts. -/
def root (doc : Document) : Node :=
  match doc.node doc.top with
  | .ok n => n
  | .error _ => .scalar doc.top .null

/-- The value of the whole document. -/
def toValue (doc : Document) : Value := doc.root.value

/-- Climbs from a node to the root, with at most so many steps; the path comes down again. -/
def climb (doc : Document) : (steps : Nat) → (h : Nat) → Except DocumentError Path
  | 0, h => .error (.staleNode h)
  | steps + 1, h => do
    match (← doc.slot h).parent with
    | none => return []
    | some parent =>
      match (← doc.slot parent).content.keyOf? h with
      | none => throw (.staleNode h)
      | some key => return (← doc.climb steps parent) ++ [key]

/-- The path of a node.  Containers are issued before their parts, so a node is no deeper than its
handle. -/
def pathOf (doc : Document) (h : Nat) : Except DocumentError Path := doc.climb (h + 1) h

/-! ## Reading by path -/

/-- One step down from a node.  `before` is the path walked so far, for the error. -/
def step (doc : Document) (before : Path) (key : Key) (h : Nat) : Except DocumentError Nat := do
  match (← doc.slot h).content with
  | .object fields =>
    match key with
    | .field name =>
      match Fields.find? name fields with
      | some child => return child
      | none => throw (.pathNotFound (before ++ [key]).text)
    | .index _ => throw (.typeMismatch before.text .array .object)
  | .array items =>
    match key with
    | .index i =>
      match items[i]? with
      | some child => return child
      | none => throw (.pathNotFound (before ++ [key]).text)
    | .field _ => throw (.typeMismatch before.text .object .array)
  | .scalar s => throw (.notContainer before.text s.kind)

/-- Follows a path down from a node; `before` is the path walked so far. -/
def follow (doc : Document) (before : Path) : Path → (h : Nat) → Except DocumentError Nat
  | [], h => .ok h
  | key :: rest, h => do
    let child ← doc.step before key h
    doc.follow (before ++ [key]) rest child

/-- The handle of the node at a path. -/
def get (doc : Document) (path : Path) : Except DocumentError Nat := doc.follow [] path doc.top

/-- The path resolves. -/
def contains (doc : Document) (path : Path) : Bool :=
  match doc.get path with
  | .ok _ => true
  | .error _ => false

/-- The value at a path. -/
def getValue (doc : Document) (path : Path) : Except DocumentError Value := do
  doc.value (← doc.get path)

/-- The content at a path, if it is of the kind asked for. -/
def contentOfKind (doc : Document) (path : Path) (expected : Kind) :
    Except DocumentError Content := do
  let content := (← doc.slot (← doc.get path)).content
  if content.kind = expected then return content
  else throw (.typeMismatch path.text expected content.kind)

/-- The value at a path, if it is of the kind asked for. -/
def getOfKind (doc : Document) (path : Path) (expected : Kind) : Except DocumentError Value := do
  let _ ← doc.contentOfKind path expected
  doc.getValue path

/-- The text at a path. -/
def getString (doc : Document) (path : Path) : Except DocumentError String := do
  match ← doc.contentOfKind path .string with
  | .scalar (.string s) => return s
  | content => throw (.typeMismatch path.text .string content.kind)

end Document

end Expansion
