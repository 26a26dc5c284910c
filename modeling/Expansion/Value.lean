import Expansion.Fields
import Expansion.Kind
import Expansion.Number

/-!
  Document values.

  A value is a scalar, an array of values, or an object of named values.  The fields of an object
  are in ascending order of name; `Ordered` says so for a value at every depth.
-/

namespace Expansion

/-- A value without parts. -/
inductive Scalar
  | null
  | boolean (b : Bool)
  | number (n : Number)
  | string (s : String)
  deriving DecidableEq, Repr, Inhabited

/-- The kind of a scalar. -/
def Scalar.kind : Scalar → Kind
  | null => .null
  | boolean _ => .boolean
  | number _ => .number
  | string _ => .string

/-- A value of a document. -/
inductive Value
  | scalar (s : Scalar)
  | array (items : List Value)
  | object (fields : List (String × Value))
  deriving Inhabited

namespace Value

@[match_pattern] abbrev null : Value := scalar .null
@[match_pattern] abbrev boolean (b : Bool) : Value := scalar (.boolean b)
@[match_pattern] abbrev number (n : Number) : Value := scalar (.number n)
@[match_pattern] abbrev string (s : String) : Value := scalar (.string s)

/-- A whole number. -/
abbrev whole (n : Int) : Value := number (.whole n)

/-- What a value is. -/
def kind : Value → Kind
  | scalar s => s.kind
  | array _ => .array
  | object _ => .object

mutual

/-- The number of values in a value, itself included. -/
def size : Value → Nat
  | scalar _ => 1
  | array items => 1 + sizeItems items
  | object fields => 1 + sizeFields fields

/-- The number of values in the elements of an array. -/
def sizeItems : List Value → Nat
  | [] => 0
  | v :: rest => v.size + sizeItems rest

/-- The number of values in the fields of an object. -/
def sizeFields : List (String × Value) → Nat
  | [] => 0
  | (_, v) :: rest => v.size + sizeFields rest

end

mutual

/-- The fields of every object are in strictly ascending order of name. -/
def Ordered : Value → Prop
  | scalar _ => True
  | array items => OrderedItems items
  | object fields => Fields.Ordered fields ∧ OrderedFields fields

/-- Every element is ordered. -/
def OrderedItems : List Value → Prop
  | [] => True
  | v :: rest => v.Ordered ∧ OrderedItems rest

/-- The value of every field is ordered. -/
def OrderedFields : List (String × Value) → Prop
  | [] => True
  | (_, v) :: rest => v.Ordered ∧ OrderedFields rest

end

mutual

/-- Whether two values are the same. -/
def decEq : (v w : Value) → Decidable (v = w)
  | scalar s, scalar t => decidable_of_iff (s = t) (scalar.injEq s t).to_iff.symm
  | array items, array more =>
    letI := decEqItems items more
    decidable_of_iff (items = more) (array.injEq items more).to_iff.symm
  | object fields, object more =>
    letI := decEqFields fields more
    decidable_of_iff (fields = more) (object.injEq fields more).to_iff.symm
  | scalar _, array _ => isFalse nofun
  | scalar _, object _ => isFalse nofun
  | array _, scalar _ => isFalse nofun
  | array _, object _ => isFalse nofun
  | object _, scalar _ => isFalse nofun
  | object _, array _ => isFalse nofun

/-- Whether two rows of elements are the same. -/
def decEqItems : (items more : List Value) → Decidable (items = more)
  | [], [] => isTrue rfl
  | [], _ :: _ => isFalse nofun
  | _ :: _, [] => isFalse nofun
  | v :: rest, w :: more =>
    letI := decEq v w
    letI := decEqItems rest more
    decidable_of_iff (v = w ∧ rest = more) (List.cons.injEq v rest w more).to_iff.symm

/-- Whether two rows of fields are the same. -/
def decEqFields : (fields more : List (String × Value)) → Decidable (fields = more)
  | [], [] => isTrue rfl
  | [], _ :: _ => isFalse nofun
  | _ :: _, [] => isFalse nofun
  | (name, v) :: rest, (other, w) :: more =>
    letI := decEq v w
    letI := decEqFields rest more
    decidable_of_iff ((name = other ∧ v = w) ∧ rest = more) (by simp)

end

instance : DecidableEq Value := decEq

/-- The field called `name`, of an object. -/
def field? (name : String) : Value → Option Value
  | object fields => Fields.find? name fields
  | _ => none

/-- The name of a constant: a text, or an object whose only field has that name and holds null. -/
def constant? : Value → Option String
  | string s => some s
  | object [(name, null)] => some name
  | _ => none

end Value

end Expansion
