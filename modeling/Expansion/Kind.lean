/-!
  The six kinds of document value.

  Kinds are also the return types of macros, so their title-cased names appear in macro keys.
-/

namespace Expansion

/-- What a document value is. -/
inductive Kind
  | null | boolean | number | string | object | array
  deriving DecidableEq, Repr, Inhabited

namespace Kind

/-- Every kind. -/
def all : List Kind := [null, boolean, number, string, object, array]

/-- The title-cased name. -/
def name : Kind → String
  | null => "Null"
  | boolean => "Boolean"
  | number => "Number"
  | string => "String"
  | object => "Object"
  | array => "Array"

/-- Objects and arrays hold other values. -/
def isContainer : Kind → Bool
  | object | array => true
  | _ => false

/-- The kind with exactly this name. -/
def named? (name : String) : Option Kind :=
  all.find? fun kind => kind.name = name

/-- Two texts agree up to the case of the letters `A` to `Z`. -/
def equalIgnoringCase (a b : String) : Bool :=
  a.map Char.toLower = b.map Char.toLower

/-- The kind with this name in any case of its letters. -/
def parse? (text : String) : Option Kind :=
  all.find? fun kind => equalIgnoringCase kind.name text

/-- What is said of a text that `parse?` refuses. -/
def unknownMessage (text : String) : String :=
  s!"unknown kind '{text}'"

/-- The further names under which a declaration may give a kind. -/
def aliases : Kind → List String
  | null => ["null"]
  | boolean => ["boolean", "Bool", "bool"]
  | number => ["number"]
  | string => ["string"]
  | object => ["object"]
  | array => ["array"]

/-- The kind that a declaration means by `name`: its name or one of its aliases, in that case. -/
def declared? (name : String) : Option Kind :=
  all.find? fun kind => kind.name = name || kind.aliases.contains name

theorem mem_all (kind : Kind) : kind ∈ all := by
  cases kind <;> decide

theorem named?_name (kind : Kind) : named? kind.name = some kind := by
  cases kind <;> decide

theorem name_injective {a b : Kind} (h : a.name = b.name) : a = b := by
  have ha := named?_name a
  rw [h, named?_name b] at ha
  exact (Option.some.inj ha).symm

theorem named?_eq_some_iff {name : String} {kind : Kind} :
    named? name = some kind ↔ kind.name = name := by
  constructor
  · intro h
    have := List.find?_some h
    simpa using this
  · rintro rfl
    exact named?_name kind

end Kind

end Expansion
