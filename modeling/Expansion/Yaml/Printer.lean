import Expansion.Value
import Expansion.Yaml.Scalar
import Expansion.Yaml.Cursor

/-!
  YAML text of a value.

  Collections are in block style, two columns deeper each; the elements of an array stand at the
  column of the field that holds them.  Empty collections are written as brackets.  A text is plain
  where it reads back as itself; a text with line breaks is a literal block, if its lines allow it;
  otherwise it is quoted, singly if possible.  A field name that spans lines or has more than 128
  octets stands after a question mark.  Lines are never folded.
-/

namespace Expansion.Yaml

/-! ## The style of a text -/

/-- Characters that stand for themselves. -/
def isPrintable (c : Char) : Bool :=
  c == '\n' || (' ' ≤ c && c ≤ '~')
    || ('\xa0' ≤ c && c != '\ufeff' && c != '\ufffe' && c != '\uffff')

/-- A blank, a line break, or the end of the text. -/
def endsWord (c : Option Char) : Bool := isBlankEnd c

/-- How a text can be written. -/
structure Writable where
  multiline : Bool
  plain : Bool
  single : Bool
  literal : Bool
  deriving Repr

/-- A character pair in a text, in order, with a property. -/
def anyPair (p : Char → Char → Bool) (text : List Char) : Bool :=
  (text.zip text.tail).any fun (a, b) => p a b

/-- A character that would mean something else where it stands in a plain text. -/
def hasIndicator (text : List Char) : Bool :=
  match text with
  | [] => false
  | first :: rest =>
    let marker := text.take 3 == ['-', '-', '-'] || text.take 3 == ['.', '.', '.']
    let opening :=
      "#,[]\x7b\x7d&*!|>'\"%@`".toList.contains first
        || ("?:-".toList.contains first && endsWord rest.head?)
    let colon :=
      anyPair (fun a b => a == ':' && endsWord (some b)) rest || rest.getLast? == some ':'
    let comment := anyPair (fun a b => endsWord (some a) && b == '#') text
    marker || opening || colon || comment

/-- How a text can be written. -/
def writable (text : List Char) : Writable :=
  if text.isEmpty then ⟨false, true, true, false⟩
  else
    let isSpace := fun c => c == ' '
    let multiline := text.any isBreak
    let special := text.any fun c => !isPrintable c
    let spaceEdge := text.head?.any isSpace || text.getLast?.any isSpace
    let spaceBreak := anyPair (fun a b => isSpace a && isBreak b) text
    let breakSpace := anyPair (fun a b => isBreak a && isSpace b) text
    { multiline
      plain := !multiline && !special && !spaceEdge && !hasIndicator text
      single := !special && !spaceBreak && !breakSpace
      literal := !special && !spaceBreak && !text.getLast?.any isSpace }

/-- The ways to write a text. -/
inductive Style
  | plain | single | double | literal
  deriving DecidableEq, Repr

/-- The way a text is written. -/
def styleOf (text : String) : Style :=
  let can := writable text.toList
  if text.toList.contains '\n' then (if can.literal then .literal else .double)
  else if can.plain && !isAmbiguous text then .plain
  else if can.single then .single
  else .double

/-! ## The page -/

/-- The text written so far. -/
structure Page where
  text : String
  column : Nat
  /-- The last thing written was a blank, or nothing was. -/
  spaced : Bool
  /-- Only indentation and indicators stand in this line. -/
  fresh : Bool

namespace Page

/-- An empty page. -/
def blank : Page := ⟨"", 0, true, true⟩

/-- Writes one character of a line. -/
def put (page : Page) (c : Char) : Page :=
  { page with text := page.text.push c, column := page.column + 1 }

/-- Ends the line. -/
def newline (page : Page) : Page := { page with text := page.text.push '\n', column := 0 }

/-- Writes a line break of a text. -/
def putBreak (page : Page) (c : Char) : Page := { page with text := page.text.push c, column := 0 }

/-- Moves to a column, in a new line unless only indentation stands in this one. -/
def indent (page : Page) (column : Nat) : Page :=
  let page :=
    if !page.fresh || column < page.column || (page.column == column && !page.spaced) then
      page.newline
    else page
  let count := column - page.column
  { page with
    text := page.text ++ String.ofList (List.replicate count ' ')
    column := page.column + count
    spaced := true
    fresh := true }

/-- Writes an indicator, with a blank before it where one is needed. -/
def mark (page : Page) (indicator : Char) (spaceBefore : Bool) (fresh : Bool) : Page :=
  let page := if spaceBefore && !page.spaced then page.put ' ' else page
  { page.put indicator with spaced := false, fresh := page.fresh && fresh }

/-- What follows is in the middle of a line. -/
def inline (page : Page) : Page := { page with spaced := false, fresh := false }

end Page

/-! ## Scalars -/

/-- Writes a plain text. -/
def Page.plain (page : Page) (text : List Char) : Page :=
  let page := if page.spaced || text.isEmpty then page else page.put ' '
  (text.foldl Page.put page).inline

/-- Writes the characters between single quotes; `broken` holds after a line break. -/
def Page.singleBody (column : Nat) : (broken : Bool) → List Char → Page → Page
  | broken, [], page => if broken then page.indent column else page
  | broken, c :: rest, page =>
    if c == ' ' then singleBody column broken rest (page.put c)
    else if isBreak c then
      let page := if !broken && c == '\n' then page.newline else page
      singleBody column true rest { page.putBreak c with fresh := true }
    else
      let page := if broken then page.indent column else page
      let page := if c == '\'' then page.put c else page
      singleBody column false rest { page.put c with fresh := false }

/-- Writes a text between single quotes, which are doubled inside. -/
def Page.single (page : Page) (column : Nat) (text : List Char) : Page :=
  ((Page.singleBody column false text (page.mark '\'' true false)).mark '\'' false false).inline

/-- The letter that stands for a character after a backslash. -/
def escapeLetter? (c : Char) : Option Char :=
  match c with
  | '\x00' => some '0'
  | '\x07' => some 'a'
  | '\x08' => some 'b'
  | '\t' => some 't'
  | '\n' => some 'n'
  | '\x0b' => some 'v'
  | '\x0c' => some 'f'
  | '\r' => some 'r'
  | '\x1b' => some 'e'
  | '"' => some '"'
  | '\\' => some '\\'
  | '\x85' => some 'N'
  | '\xa0' => some '_'
  | '\u2028' => some 'L'
  | '\u2029' => some 'P'
  | _ => none

/-- A number in base sixteen, in capitals, with a least count of digits. -/
def hexText (width : Nat) (n : Nat) : List Char :=
  let digits := (Nat.toDigits 16 n).map Char.toUpper
  List.replicate (width - digits.length) '0' ++ digits

/-- A character between double quotes. -/
def doubleChar (c : Char) : List Char :=
  if isPrintable c && !isBreak c && c != '"' && c != '\\' then [c]
  else
    match escapeLetter? c with
    | some letter => ['\\', letter]
    | none =>
      if c.toNat ≤ 0xff then '\\' :: 'x' :: hexText 2 c.toNat
      else if c.toNat ≤ 0xffff then '\\' :: 'u' :: hexText 4 c.toNat
      else '\\' :: 'U' :: hexText 8 c.toNat

/-- Writes a text between double quotes. -/
def Page.double (page : Page) (text : List Char) : Page :=
  let page := (text.flatMap doubleChar).foldl Page.put (page.mark '"' true false)
  (page.mark '"' false false).inline

/-- Writes the indicators of a literal block: the indentation where the first line does not show it,
and what becomes of the last line breaks. -/
def Page.literalHints (page : Page) (text : List Char) : Page :=
  let page :=
    if text.head?.any fun c => c == ' ' || isBreak c then page.mark '2' false false else page
  match text.reverse with
  | last :: before =>
    if !isBreak last then page.mark '-' false false
    else
      match before with
      | [] => page.mark '+' false false
      | c :: _ => if isBreak c then page.mark '+' false false else page
  | [] => page.mark '-' false false

/-- Writes the lines of a literal block; `broken` holds after a line break. -/
def Page.literalBody (column : Nat) : (broken : Bool) → List Char → Page → Page
  | _, [], page => page
  | broken, c :: rest, page =>
    if isBreak c then literalBody column true rest { page.putBreak c with fresh := true }
    else
      let page := if broken then page.indent column else page
      literalBody column false rest { page.put c with fresh := false }

/-- Writes a literal block. -/
def Page.literal (page : Page) (column : Nat) (text : List Char) : Page :=
  let page := (page.mark '|' true false).literalHints text
  Page.literalBody column true text { page.newline with spaced := true, fresh := true }

/-- Writes a text; `column` is where its further lines start. -/
def Page.string (page : Page) (column : Nat) (text : String) : Page :=
  let chars := text.toList
  match styleOf text with
  | .plain => page.plain chars
  | .single => page.single column chars
  | .double => page.double chars
  | .literal => page.literal column chars

/-- Writes a scalar. -/
def Page.scalar (page : Page) (column : Nat) : Scalar → Page
  | .null => page.plain "null".toList
  | .boolean b => page.plain (toString b).toList
  | .number n => page.plain (n.text exponentStyle).toList
  | .string s => page.string column s

/-! ## Collections -/

/-- A field name that can stand in front of its colon. -/
def isSimpleName (name : String) : Bool :=
  !(name.toList.any isBreak) && name.utf8ByteSize ≤ 128

/-- The column of what a collection at `column` holds; outside of all collections it is `none`. -/
def deeper (column : Option Nat) (step : Nat) : Nat :=
  match column with
  | none => 0
  | some n => n + step

/-- Where the further lines of a scalar start. -/
def scalarColumn (column : Option Nat) : Nat :=
  match column with
  | none => 2
  | some n => n + 2

mutual

/-- Writes a value inside a collection at `column`; `field` holds for the value of a field. -/
def writeValue (column : Option Nat) (field : Bool) : Value → Page → Page
  | .scalar s, page => page.scalar (scalarColumn column) s
  | .array [], page => (page.mark '[' true false).mark ']' false false
  | .array (v :: rest), page =>
    -- The elements of a field stand at its column unless they share its line.
    let own := deeper column (if field && !page.fresh then 0 else 2)
    writeItems own (v :: rest) page
  | .object [], page => (page.mark '\x7b' true false).mark '\x7d' false false
  | .object (entry :: rest), page => writeFields (deeper column 2) (entry :: rest) page

/-- Writes elements, each after a hyphen. -/
def writeItems (column : Nat) : List Value → Page → Page
  | [], page => page
  | v :: rest, page =>
    let page := (page.indent column).mark '-' true true
    writeItems column rest (writeValue (some column) false v page)

/-- Writes fields, each with a colon after its name. -/
def writeFields (column : Nat) : List (String × Value) → Page → Page
  | [], page => page
  | (name, v) :: rest, page =>
    let page := page.indent column
    let page :=
      if isSimpleName name then (page.string (column + 2) name).mark ':' false false
      else
        let page := (page.mark '?' true true).string (column + 2) name
        (page.indent column).mark ':' true true
    writeFields column rest (writeValue (some column) true v page)

end

/-- The YAML text of a value. -/
def text (v : Value) : String := ((writeValue none false v Page.blank).indent 0).text

end Expansion.Yaml
