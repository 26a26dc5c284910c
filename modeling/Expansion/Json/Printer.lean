import Expansion.Value

/-!
  Compact JSON text.

  No blanks; fields in the order of the object; texts escape the quote, the backslash and the
  control characters below the space, and nothing else; numbers print their shortest form, with a
  plus sign before a positive exponent.
-/

namespace Expansion.Json

/-- Exponents carry their sign. -/
def exponentStyle : ExponentStyle := ⟨true⟩

/-- A hexadecimal digit in lower case. -/
def hexDigit (n : Nat) : Char := Nat.digitChar n

/-- One character of a text literal. -/
def encodeChar (c : Char) : List Char :=
  if c = '"' then ['\\', '"']
  else if c = '\\' then ['\\', '\\']
  else if c = '\n' then ['\\', 'n']
  else if c = '\r' then ['\\', 'r']
  else if c = '\t' then ['\\', 't']
  else if c = '\x08' then ['\\', 'b']
  else if c = '\x0c' then ['\\', 'f']
  else if c.toNat < 0x20 then
    ['\\', 'u', '0', '0', hexDigit (c.toNat / 16), hexDigit (c.toNat % 16)]
  else [c]

/-- A text literal. -/
def encodeText (text : String) : List Char :=
  '"' :: text.toList.flatMap encodeChar ++ ['"']

/-- The text of a scalar. -/
def encodeScalar : Scalar → List Char
  | .null => ['n', 'u', 'l', 'l']
  | .boolean true => ['t', 'r', 'u', 'e']
  | .boolean false => ['f', 'a', 'l', 's', 'e']
  | .number n => (n.text exponentStyle).toList
  | .string s => encodeText s

mutual

/-- The text of a value. -/
def encode : Value → List Char
  | .scalar s => encodeScalar s
  | .array items => '[' :: encodeItems true items ++ [']']
  | .object fields => '\x7b' :: encodeFields true fields ++ ['\x7d']

/-- The elements of an array, a comma before all but the first. -/
def encodeItems (first : Bool) : List Value → List Char
  | [] => []
  | v :: rest => (if first then [] else [',']) ++ encode v ++ encodeItems false rest

/-- The fields of an object, a comma before all but the first. -/
def encodeFields (first : Bool) : List (String × Value) → List Char
  | [] => []
  | (name, v) :: rest =>
    (if first then [] else [',']) ++ encodeText name ++ ':' :: encode v ++ encodeFields false rest

end

/-- The compact text of a value. -/
def text (v : Value) : String := String.ofList (encode v)

end Expansion.Json
