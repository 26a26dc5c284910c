import Expansion.Document.Branch
import Expansion.Journal

/-!
  Walking a document, depth first.

  A visitor is shown the branch of every node below the root before the parts of that node: fields
  in the order of the object, elements by index.  It carries a state from one branch to the next and
  may stop the walk with an error.  The walk reads the document node by node, by the handles that
  the branches carry.
-/

namespace Expansion

/-- What is done at a branch, with the state so far. -/
abbrev Visit (σ ε : Type) := σ → Branch → Logged (Except ε σ)

/-- The rest of a walk below a branch: from the state and the branches so far to those at the end.
-/
abbrev Descent (σ ε : Type) := Branch → σ → Tracker → Logged (Except ε (σ × Tracker))

namespace Document

variable {σ ε : Type}

/-- Comes to a part: its branch is issued and shown, and what is below it is walked by `descend`. -/
def enter (doc : Document) (ofDocument : DocumentError → ε) (visit : Visit σ ε)
    (descend : Descent σ ε) (parent : Branch) (key : Key) (part : Nat) (state : σ)
    (tracker : Tracker) : Logged (Except ε (σ × Tracker)) :=
  match doc.kind part with
  | .error e => pure (.error (ofDocument e))
  | .ok kind =>
    match tracker.child parent key part kind with
    | .error e => pure (.error (ofDocument e))
    | .ok (branch, tracker) => do
      match ← visit state branch with
      | .error e => pure (.error e)
      | .ok state =>
        if kind.isContainer then descend branch state tracker else pure (.ok (state, tracker))

/-- Comes to the parts of a container, one after the other. -/
def walkParts (doc : Document) (ofDocument : DocumentError → ε) (visit : Visit σ ε)
    (descend : Descent σ ε) (parent : Branch) :
    List (Key × Nat) → σ → Tracker → Logged (Except ε (σ × Tracker))
  | [], state, tracker => pure (.ok (state, tracker))
  | (key, part) :: rest, state, tracker => do
    match ← doc.enter ofDocument visit descend parent key part state tracker with
    | .error e => pure (.error e)
    | .ok (state, tracker) => doc.walkParts ofDocument visit descend parent rest state tracker

/-- Walks what is below the node of a branch, with at most so many levels. -/
def walkWithin (doc : Document) (ofDocument : DocumentError → ε) (visit : Visit σ ε) :
    (levels : Nat) → Descent σ ε
  | 0, branch, _, _ => pure (.error (ofDocument (.staleNode branch.node)))
  | levels + 1, branch, state, tracker =>
    match doc.children branch.node with
    | .error e => pure (.error (ofDocument e))
    | .ok parts =>
      doc.walkParts ofDocument visit (doc.walkWithin ofDocument visit levels) branch parts state
        tracker

/-- Walks a document from its root, which `visitRoot` is shown; the branches issued on the way come
with the final state.  Parts are issued after their container, so a document has no more levels
than slots. -/
def walkFromRoot (ofDocument : DocumentError → ε) (visitRoot visit : Visit σ ε) (state : σ)
    (doc : Document) : Logged (Except ε (σ × Tracker)) :=
  match doc.kind doc.top with
  | .error e => pure (.error (ofDocument e))
  | .ok kind => do
    match ← visitRoot state (.root doc.top kind) with
    | .error e => pure (.error e)
    | .ok state =>
      doc.walkWithin ofDocument visit doc.slots.size (.root doc.top kind) state
        (.start doc.top kind)

/-- Walks a document without showing its root. -/
def walk (ofDocument : DocumentError → ε) (visit : Visit σ ε) (state : σ) (doc : Document) :
    Logged (Except ε (σ × Tracker)) :=
  walkFromRoot ofDocument (fun state _ => pure (.ok state)) visit state doc

/-- The branches of a document, in the order of the walk. -/
def branches (doc : Document) : Except DocumentError (List Branch) :=
  (doc.walk id (fun _ _ => pure (.ok ())) ()).value.map fun (_, tracker) => tracker.branches

end Document

end Expansion
