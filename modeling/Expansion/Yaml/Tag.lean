import Expansion.Yaml.Text

/-!
  The tags of YAML nodes.

  A tag is written in characters, and a percent sign with two digits writes one octet.  So a tag is
  a list of octets.  They come in groups as in UTF-8, where the first octet of a group says how many
  follow, but a group need not stand for a character.  The octet zero ends a tag.

  A tag that starts with an exclamation mark is local.  A local tag that is a text stays with its
  node under a name.
-/

namespace Expansion.Yaml

/-- A tag: its octets, none of them zero. -/
structure Tag where
  octets : List UInt8
  deriving DecidableEq, Repr, Inhabited

namespace Tag

/-- The tag that octets spell, up to the first zero. -/
def ofOctets (octets : List UInt8) : Tag := ⟨octets.takeWhile (· ≠ 0)⟩

/-- The tag that a text spells. -/
def ofString (text : String) : Tag := ofOctets text.toUTF8.data.toList

/-- A tag with another one after it. -/
def append (tag other : Tag) : Tag := ⟨tag.octets ++ other.octets⟩

instance : Append Tag := ⟨append⟩

/-- Nothing is written. -/
def isEmpty (tag : Tag) : Bool := tag.octets.isEmpty

/-- The tag `!`. -/
def mark : Tag := ofString "!"

/-- The start of the tags that YAML itself defines. -/
def standardStem : Tag := ofString "tag:yaml.org,2002:"

/-- A tag that YAML itself defines. -/
def standard (name : String) : Tag := standardStem ++ ofString name

/-! ## Written tags -/

/-- Characters of a tag; inside angle brackets, and in a directive, a few more. -/
def isTagChar (wide : Bool) (c : Char) : Bool :=
  isWord c || ";/?:@&=+$.%!~*'()".toList.contains c || (wide && ",[]".toList.contains c)

/-- The octets that characters of a tag write. -/
def octetsOf : List Char → Except Fault (List UInt8)
  | [] => .ok []
  | '%' :: a :: b :: rest => do
    match hexValue? a, hexValue? b with
    | some a, some b => return UInt8.ofNat (a * 16 + b) :: (← octetsOf rest)
    | _, _ => throw ⟨"an octet of a tag"⟩
  | c :: rest => do
    if c == '%' then throw ⟨"an octet of a tag"⟩
    return c.toNat.toUInt8 :: (← octetsOf rest)

/-- The number of octets that follow the first one of a group. -/
def following? (first : UInt8) : Option Nat :=
  if first < 0x80 then some 0
  else if first < 0xc0 then none
  else if first < 0xe0 then some 1
  else if first < 0xf0 then some 2
  else if first < 0xf8 then some 3
  else none

/-- The octets are whole groups, after `due` more octets of a group that has started. -/
def isGrouped : (due : Nat) → List UInt8 → Bool
  | 0, [] => true
  | _ + 1, [] => false
  | 0, b :: rest =>
    match following? b with
    | some due => isGrouped due rest
    | none => false
  | due + 1, b :: rest => 0x80 ≤ b && b < 0xc0 && isGrouped due rest

/-- The tag that characters write. -/
def ofChars (chars : List Char) : Except Fault Tag := do
  let octets ← octetsOf chars
  if isGrouped 0 octets then return ofOctets octets else throw ⟨"an octet of a tag"⟩

/-! ## Local tags -/

/-- Octets without an exclamation mark in front, as long as something remains. -/
def unmarked : List UInt8 → List UInt8
  | 0x21 :: b :: rest => b :: rest
  | octets => octets

/-- The tag starts with an exclamation mark. -/
def isLocal (tag : Tag) : Bool := tag.octets.head? == some 0x21

/-- The name under which a tag stays with its node: a local tag without the one or two exclamation
marks in front, as long as something remains. -/
def name? (tag : Tag) : Option String :=
  if tag.isLocal then String.fromUTF8? ⟨(unmarked (unmarked tag.octets)).toArray⟩ else none

end Tag

end Expansion.Yaml
