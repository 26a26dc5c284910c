import Expansion.Json.Printer
import Expansion.Yaml.Printer

/-!
  Values as text: compact JSON, a YAML document, or the elements of an array joined.

  A joined text has no separators.  Its elements contribute their own text: nothing for null, a
  text itself, the JSON form of everything else.
-/

namespace Expansion

/-- A way to turn a value into text. -/
inductive Transform
  | json | yaml | join
  deriving DecidableEq, Repr

namespace Transform

/-- What the result is, in words. -/
def name : Transform → String
  | json => "JSON"
  | yaml => "YAML"
  | join => "joined string"

/-- The text that an element contributes. -/
def element : Value → String
  | .scalar .null => ""
  | .scalar (.string s) => s
  | v => Json.text v

/-- The texts of the elements, one after the other. -/
def joined (items : List Value) : String := String.join (items.map element)

/-- The text of a value.  Only an array can be joined; the kind of any other value is the error. -/
def render : Transform → Value → Except Kind String
  | json, v => .ok (Json.text v)
  | yaml, v => .ok (Yaml.text v)
  | join, .array items => .ok (joined items)
  | join, v => .error v.kind

end Transform

end Expansion
