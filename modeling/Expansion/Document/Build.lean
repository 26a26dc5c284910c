import Expansion.Document.Basic

/-!
  Issuing slots for values.

  A value gets one slot for each of its parts.  The slot of a container is issued before those of
  its parts, and the parts get theirs in order, depth first.
-/

namespace Expansion.Document

/-- Changes what a slot holds. -/
def update (h : Nat) (f : Content → Content) (doc : Document) : Document :=
  { doc with
    slots := doc.slots.modify h (Option.map fun slot => { slot with content := f slot.content }) }

/-- The document with one more slot.  It holds nothing until it is filled. -/
def issue (parent : Option Nat) (doc : Document) : Document :=
  { doc with slots := doc.slots.push (some ⟨parent, .scalar .null⟩), live := doc.live + 1 }

/-- Issues a slot and fills it with what is built for it. -/
def allot (parent : Option Nat) (build : (owner : Nat) → Document → Content × Document)
    (doc : Document) : Nat × Document :=
  let h := doc.slots.size
  let (content, doc) := build h (doc.issue parent)
  (h, doc.update h fun _ => content)

mutual

/-- What the slot `owner` holds for a value, after slots are issued for the parts. -/
def build (owner : Nat) : Value → Document → Content × Document
  | .scalar s, doc => (.scalar s, doc)
  | .array items, doc =>
    let (parts, doc) := buildItems owner items doc
    (.array parts, doc)
  | .object fields, doc =>
    let (parts, doc) := buildFields owner fields doc
    (.object parts, doc)

/-- Issues slots for the elements of an array. -/
def buildItems (owner : Nat) : List Value → Document → List Nat × Document
  | [], doc => ([], doc)
  | v :: rest, doc =>
    let (h, doc) := doc.allot (some owner) fun h => build h v
    let (parts, doc) := buildItems owner rest doc
    (h :: parts, doc)

/-- Issues slots for the fields of an object. -/
def buildFields (owner : Nat) : List (String × Value) → Document → Fields Nat × Document
  | [], doc => ([], doc)
  | (name, v) :: rest, doc =>
    let (h, doc) := doc.allot (some owner) fun h => build h v
    let (parts, doc) := buildFields owner rest doc
    ((name, h) :: parts, doc)

end

/-- Issues slots for a value in a container; the handle of the value comes first. -/
def alloc (parent : Option Nat) (v : Value) (doc : Document) : Nat × Document :=
  doc.allot parent fun h => build h v

/-- The document of a value. -/
def ofValue (v : Value) : Document :=
  let (top, doc) := alloc none v ⟨#[], 0, 0⟩
  { doc with top }

end Expansion.Document
