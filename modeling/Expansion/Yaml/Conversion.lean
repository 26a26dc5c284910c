import Expansion.Document.Error
import Expansion.Value
import Expansion.Yaml.Datum

/-!
  Document values from YAML data.

  A mapping becomes an object: its keys must be texts, or natural numbers below `2 ^ 64`, which
  become their decimal text.  Tags are forgotten.  Infinities and the undefined number have no place
  in a document.  The first offence, in the order of the document and a key before its value, is
  the error.
-/

namespace Expansion.Yaml

/-- The number of a document, if it is one. -/
def Numeral.number? : Numeral → Option Number
  | whole n => if Number.fits n then some (.whole n) else none
  | real x => some (.real x)
  | infinite _ => none
  | undefined => none

namespace Datum

/-! ## Data in words -/

mutual

/-- A datum in words, by constructors. -/
def describe : Datum → String
  | null => "Null"
  | boolean b => "Bool(" ++ toString b ++ ")"
  | number n => "Number(" ++ n.text ++ ")"
  | string s => "String(" ++ Text.Quoted.encode s ++ ")"
  | sequence items => "Sequence [" ++ describeItems true items ++ "]"
  | mapping entries => "Mapping \x7b" ++ describeEntries true entries ++ "\x7d"
  | tagged tag datum =>
    "TaggedValue \x7b tag: !" ++ tag ++ ", value: " ++ datum.describe ++ " \x7d"

/-- Elements in words, separated by commas. -/
def describeItems (first : Bool) : List Datum → String
  | [] => ""
  | item :: rest => (if first then "" else ", ") ++ item.describe ++ describeItems false rest

/-- Entries in words, separated by commas; truth values, numbers and texts stand as keys without
their constructor. -/
def describeEntries (first : Bool) : List (Datum × Datum) → String
  | [] => ""
  | (key, value) :: rest =>
    let keyText :=
      match key with
      | boolean b => toString b
      | number n => n.text
      | string s => Text.Quoted.encode s
      | key => key.describe
    (if first then "" else ", ") ++ keyText ++ ": " ++ value.describe ++ describeEntries false rest

end

/-! ## Values -/

/-- The field name that a key becomes. -/
def fieldName? : Datum → Option String
  | string s => some s
  | number (.whole n) => if 0 ≤ n ∧ n < Nat.pow 2 64 then some (toString n) else none
  | _ => none

mutual

/-- The value of the datum at `path`. -/
def value (path : Path) : Datum → Except DocumentError Value
  | null => .ok .null
  | boolean b => .ok (.boolean b)
  | number n =>
    match n.number? with
    | some n => .ok (.number n)
    | none => .error (.invalidValue path.text n.text)
  | string s => .ok (.string s)
  | sequence items => do return .array (← valueItems path 0 items)
  | mapping entries => do return .object (← valueEntries path [] entries)
  | tagged _ datum => datum.value path

/-- The values of the elements, counted from `i`. -/
def valueItems (path : Path) (i : Nat) : List Datum → Except DocumentError (List Value)
  | [] => .ok []
  | item :: rest => do
    let v ← item.value (path ++ [.index i])
    return v :: (← valueItems path (i + 1) rest)

/-- The fields of a mapping, after those `before`; the last of equal names counts. -/
def valueEntries (path : Path) (before : Fields Value) :
    List (Datum × Datum) → Except DocumentError (Fields Value)
  | [] => .ok before
  | (key, datum) :: rest => do
    match key.fieldName? with
    | none => .error (.invalidKey path.text key.describe)
    | some name => do
      let v ← datum.value (path ++ [.field name])
      valueEntries path (Fields.insert name v before) rest

end

end Datum

end Expansion.Yaml
