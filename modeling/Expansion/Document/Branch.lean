import Expansion.Document.Basic

/-!
  Branches: the positions that a walk comes to.

  A tracker issues branches one after the other, starting with the root.  A branch knows its parent
  and the key under it, the whole path and its text, and the node it was issued for.  Under one
  parent every key is visited at most once.
-/

namespace Expansion

/-- A position that a walk came to. -/
structure Branch where
  /-- The position in the order of issue; the root is 0. -/
  id : Nat
  parent : Option Nat
  key : Option Key
  path : Path
  text : String
  kind : Kind
  /-- The handle of the node. -/
  node : Nat
  deriving DecidableEq, Repr, Inhabited

namespace Branch

/-- The field name under the parent. -/
def fieldName? (branch : Branch) : Option String := branch.key.bind Key.name?

/-- The path of the enclosing container; the root has none. -/
def parentPath? (branch : Branch) : Option Path := branch.path.parent?

/-- Only the root has no parent. -/
def isRoot (branch : Branch) : Bool := branch.parent.isNone

/-- The branch of a document's root. -/
def root (node : Nat) (kind : Kind) : Branch :=
  ⟨0, none, none, [], Path.text [], kind, node⟩

/-- An identifier in words. -/
def describeId (id : Nat) : String := s!"BranchId({id})"

end Branch

/-- The branches issued so far, in order. -/
structure Tracker where
  branches : List Branch
  deriving DecidableEq, Repr

namespace Tracker

/-- A walk starts at the root. -/
def start (node : Nat) (kind : Kind) : Tracker := ⟨[Branch.root node kind]⟩

/-- The number of branches. -/
def len (tracker : Tracker) : Nat := tracker.branches.length

/-- A tracker always holds the root. -/
def isEmpty (tracker : Tracker) : Bool := tracker.branches.isEmpty

/-- The branch with an identifier. -/
def get? (tracker : Tracker) (id : Nat) : Option Branch := tracker.branches[id]?

/-- The branch that a branch was issued under. -/
def parentOf? (tracker : Tracker) (branch : Branch) : Option Branch :=
  branch.parent.bind tracker.get?

/-- A branch was issued for this key under this parent. -/
def seen (tracker : Tracker) (parent : Branch) (key : Key) : Bool :=
  tracker.branches.any fun branch => branch.parent == some parent.id && branch.key == some key

/-- Issues the branch for `key` under `parent`, once. -/
def child (tracker : Tracker) (parent : Branch) (key : Key) (node : Nat) (kind : Kind) :
    Except DocumentError (Branch × Tracker) :=
  if tracker.seen parent key then .error (.duplicateKey parent.text key.text)
  else
    let branch : Branch :=
      ⟨tracker.len, some parent.id, some key, parent.path ++ [key], parent.text ++ key.text, kind,
        node⟩
    .ok (branch, ⟨tracker.branches ++ [branch]⟩)

end Tracker

end Expansion
