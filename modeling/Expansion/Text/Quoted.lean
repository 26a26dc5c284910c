import Expansion.Text.Combining
import Expansion.Text.Invisible

/-!
  Quoted text for messages and paths.

  A quoted text stands between double quotes.  The quote and the backslash are written with a
  backslash before them, the usual control characters by a letter, and a character without a form
  of its own by its number.  Since every backslash of the text is doubled and every quote marked,
  the quoted form determines the text, whichever characters are written by number.
-/

namespace Expansion.Text.Quoted

/-- Characters that are written by their number. -/
def byNumber (c : Char) : Bool := Combining.contains c || Invisible.contains c

/-- The digits of a code point in base sixteen, between braces. -/
def numbered (c : Char) : List Char :=
  '\\' :: 'u' :: '\x7b' :: Nat.toDigits 16 c.toNat ++ ['\x7d']

/-- One character of a quoted text; `table` tells the characters that are written by their number.
-/
def encodeChar (table : Char → Bool) (c : Char) : List Char :=
  if c = '"' then ['\\', '"']
  else if c = '\\' then ['\\', '\\']
  else if c = '\n' then ['\\', 'n']
  else if c = '\r' then ['\\', 'r']
  else if c = '\t' then ['\\', 't']
  else if c = '\x00' then ['\\', '0']
  else if table c then numbered c
  else [c]

/-- The quoted characters of a text, without the quotes around them. -/
def body (table : Char → Bool) (text : List Char) : List Char := text.flatMap (encodeChar table)

/-- The text between quotes, with the characters of a table by their number. -/
def encodeBy (table : Char → Bool) (text : String) : String :=
  String.ofList ('"' :: body table text.toList ++ ['"'])

/-- The text between quotes. -/
def encode : String → String := encodeBy byNumber

end Expansion.Text.Quoted
