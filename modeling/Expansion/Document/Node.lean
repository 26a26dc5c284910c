import Expansion.Value

/-!
  Nodes: values with a handle at each of their parts.

  A node is what is read off a document at a handle: the value found there, every part of it with
  the handle under which the document keeps it.  `value` forgets the handles.
-/

namespace Expansion

/-- A value with a handle at each of its parts. -/
inductive Node
  | scalar (id : Nat) (s : Scalar)
  | array (id : Nat) (items : List Node)
  | object (id : Nat) (fields : List (String × Node))
  deriving Inhabited

namespace Node

/-- The handle. -/
def id : Node → Nat
  | scalar id _ => id
  | array id _ => id
  | object id _ => id

/-- What the value of a node is. -/
def kind : Node → Kind
  | scalar _ s => s.kind
  | array _ _ => .array
  | object _ _ => .object

mutual

/-- The value of a node. -/
def value : Node → Value
  | scalar _ s => .scalar s
  | array _ items => .array (valueItems items)
  | object _ fields => .object (valueFields fields)

/-- The values of the elements. -/
def valueItems : List Node → List Value
  | [] => []
  | n :: rest => n.value :: valueItems rest

/-- The values of the fields. -/
def valueFields : List (String × Node) → List (String × Value)
  | [] => []
  | (name, n) :: rest => (name, n.value) :: valueFields rest

end

theorem valueItems_eq_map (items : List Node) : valueItems items = items.map Node.value := by
  induction items with
  | nil => rfl
  | cons n rest ih => simp [valueItems, ih]

theorem valueFields_eq_map (fields : List (String × Node)) :
    valueFields fields = fields.map fun entry => (entry.1, entry.2.value) := by
  induction fields with
  | nil => rfl
  | cons entry rest ih => simp [valueFields, ih]

theorem kind_value (n : Node) : n.value.kind = n.kind := by
  cases n <;> rfl

end Node

end Expansion
