import Expansion.Path
import Expansion.Kind

/-!
  What can go wrong with a document.

  Each constructor is a cause; `message` words it.  Paths are kept in their text form, as a message
  shows them.
-/

namespace Expansion

/-- Why a document cannot be read, addressed or changed. -/
inductive DocumentError
  /-- A key of a mapping that is neither a text nor a natural number. -/
  | invalidKey (path found : String)
  /-- A value that documents cannot hold. -/
  | invalidValue (path found : String)
  /-- A key visited twice under one parent. -/
  | duplicateKey (parent key : String)
  /-- No such field or element. -/
  | pathNotFound (path : String)
  /-- A value of another kind than the one asked for. -/
  | typeMismatch (path : String) (expected actual : Kind)
  /-- A step into a value without parts. -/
  | notContainer (path : String) (actual : Kind)
  /-- The root has no container to be removed from. -/
  | rootDelete
  /-- A handle whose node has left the document. -/
  | staleNode (node : Nat)
  deriving DecidableEq, Repr

namespace DocumentError

/-- The error in words. -/
def message : DocumentError → String
  | invalidKey path found =>
    s!"Invalid key at {path}: {found} (expected a string or a non-negative integer)"
  | invalidValue path found => s!"Invalid value at {path}: {found} has no JSON representation"
  | duplicateKey parent key => s!"Duplicate key {key} under {parent}"
  | pathNotFound path => s!"Path not found: {path}"
  | typeMismatch path expected actual =>
    "Type mismatch at " ++ path ++ ": expected " ++ expected.name ++ ", found " ++ actual.name
  | notContainer path actual => "Not a container at " ++ path ++ ": found " ++ actual.name
  | rootDelete => "Cannot delete the document root"
  | staleNode node => s!"Node #{node} is no longer attached to the tree"

/-- The error says that a path leads nowhere. -/
def isPathNotFound : DocumentError → Bool
  | pathNotFound _ => true
  | _ => false

end DocumentError

end Expansion
