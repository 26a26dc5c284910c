import Expansion.Macro.Error

/-!
  Attributes: the named values that lookups substitute.

  An attribute is declared with a type.  A lookup asks for a type, and both the declaration and the
  value must agree with it; the declaration is checked first.
-/

namespace Expansion

/-- A value declared with a type. -/
structure Attribute where
  kind : Kind
  value : Value
  deriving Inhabited

/-- The attribute whose type is that of its value. -/
def Attribute.inferred (value : Value) : Attribute := ⟨value.kind, value⟩

/-- Attributes by name. -/
abbrev Attributes := Fields Attribute

namespace Attributes

/-- Attributes for the values of an object. -/
def ofValues (values : Fields Value) : Attributes :=
  values.map fun (name, value) => (name, .inferred value)

/-- Files an attribute; the one it replaces comes first. -/
def insert (name : String) (a : Attribute) (attributes : Attributes) :
    Option Attribute × Attributes :=
  (Fields.find? name attributes, Fields.insert name a attributes)

/-- Files a value under a declared type. -/
def declare (name : String) (kind : Kind) (value : Value) (attributes : Attributes) : Attributes :=
  Fields.insert name ⟨kind, value⟩ attributes

/-- The kind that stands in the way of reading an attribute as `expected`: the declared one if it
differs, else the kind of the value. -/
def actualKind (a : Attribute) (expected : Kind) : Kind :=
  if a.kind = expected then a.value.kind else a.kind

/-- The value of the attribute `name`, of type `expected`. -/
def lookup (attributes : Attributes) (name : String) (expected : Kind) :
    Except MacroError Value :=
  match Fields.find? name attributes with
  | none => .error (.attributeNotFound name)
  | some a =>
    let actual := actualKind a expected
    if actual = expected then .ok a.value
    else .error (.attributeTypeMismatch name expected actual)

/-- A lookup succeeds when the declaration and the value agree with it. -/
theorem lookup_eq_ok_iff {attributes : Attributes} {name : String} {expected : Kind}
    {value : Value} :
    lookup attributes name expected = .ok value ↔
      Fields.find? name attributes = some ⟨expected, value⟩ ∧ value.kind = expected := by
  unfold lookup
  cases h : Fields.find? name attributes with
  | none => simp
  | some a =>
    obtain ⟨kind, v⟩ := a
    by_cases hk : kind = expected
    · by_cases hv : v.kind = expected
      · simp [actualKind, hk, hv]
        intro e; exact e ▸ hv
      · simp [actualKind, hk, hv]
        intro e; exact e ▸ hv
    · simp [actualKind, hk]

end Attributes

end Expansion
