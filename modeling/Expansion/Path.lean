import Expansion.Text.Quoted

/-!
  Keys and paths.

  A path leads from the root of a document to one of its values, one key per step: the name of a
  field of an object, or the index of an element of an array.  Its text starts with `$` and gives
  each key in brackets, names quoted.
-/

namespace Expansion

/-- One step of a path. -/
inductive Key
  | field (name : String)
  | index (i : Nat)
  deriving DecidableEq, Repr, Inhabited

/-- The steps from the root. -/
abbrev Path := List Key

namespace Key

/-- The name, of a field. -/
def name? : Key → Option String
  | field name => some name
  | index _ => none

/-- The position, of an element. -/
def index? : Key → Option Nat
  | field _ => none
  | index i => some i

/-- The step in brackets, a name in the form that `quote` gives it. -/
def textBy (quote : String → String) : Key → String
  | field name => "[" ++ quote name ++ "]"
  | index i => "[" ++ toString i ++ "]"

/-- The step in brackets. -/
def text : Key → String := textBy Text.Quoted.encode

/-- The step by its constructor and content. -/
def describe : Key → String
  | field name => "Field(" ++ Text.Quoted.encode name ++ ")"
  | index i => "Index(" ++ toString i ++ ")"

/-- Names before indices; names by code point, indices by value. -/
def cmp : Key → Key → Ordering
  | field a, field b => compare a b
  | field _, index _ => .lt
  | index _, field _ => .gt
  | index i, index j => compare i j

end Key

namespace Path

/-- The path as one text, from the root `$`, with names in the form that `quote` gives them. -/
def textBy (quote : String → String) (path : Path) : String :=
  path.foldl (fun text key => text ++ key.textBy quote) "$"

/-- The path as one text, from the root `$`. -/
def text : Path → String := textBy Text.Quoted.encode

/-- The steps by constructor and content, as a list. -/
def describe (path : Path) : String :=
  "[" ++ ", ".intercalate (path.map Key.describe) ++ "]"

/-- The order of the first steps that differ; a path comes before its continuations. -/
def cmp : Path → Path → Ordering
  | [], [] => .eq
  | [], _ :: _ => .lt
  | _ :: _, [] => .gt
  | a :: p, b :: q => (a.cmp b).then (cmp p q)

/-- The path of the enclosing container; the root has none. -/
def parent? (path : Path) : Option Path :=
  if path.isEmpty then none else some path.dropLast

@[simp] theorem text_nil : text [] = "$" := rfl

theorem text_concat (path : Path) (key : Key) : text (path ++ [key]) = text path ++ key.text := by
  simp [text, textBy, Key.text]

end Path

end Expansion
