import Expansion.Json.Literal
import Expansion.Macro.Attributes

/-!
  Declarations: kinds, phases and attributes as values.

  A kind or a phase is given by its name, as a constant.  An attribute is an object with a type and
  a value, or the two in an array; other fields of the object are ignored.  Attributes are the
  fields of an object.
-/

namespace Expansion.Declaration

/-- What a value declares, or that it has the wrong form. -/
abbrev Declared (α : Type) := Except Json.Fault α

/-- The answer of an option; nothing is a wrong form. -/
def ofOption {α : Type} : Option α → Declared α
  | some a => .ok a
  | none => .error .mismatched

/-- A declared kind. -/
def kind (v : Value) : Declared Kind := ofOption (v.constant?.bind Kind.declared?)

/-- A declared phase. -/
def phase (v : Value) : Declared Phase := ofOption (v.constant?.bind Phase.titled?)

/-- A declared attribute. -/
def single : Value → Declared Attribute
  | .object fields => do
    let type ← ofOption (Fields.find? "type" fields)
    let value ← ofOption (Fields.find? "value" fields)
    return ⟨← kind type, value⟩
  | .array [type, value] => do return ⟨← kind type, value⟩
  | _ => .error .mismatched

/-- Attributes declared one by one. -/
def attributeFields : Fields Value → Declared Attributes
  | [] => .ok []
  | (name, v) :: rest => do
    let declared ← single v
    return (name, declared) :: (← attributeFields rest)

/-- Declared attributes. -/
def attributes : Value → Declared Attributes
  | .object fields => attributeFields fields
  | _ => .error .mismatched

/-- An attribute as a declaration. -/
def ofAttribute (a : Attribute) : Value :=
  .object [("type", .string a.kind.name), ("value", a.value)]

/-- Attributes as declarations. -/
def ofAttributes (attributes : Attributes) : Value :=
  .object (attributes.map fun (name, a) => (name, ofAttribute a))

end Expansion.Declaration
