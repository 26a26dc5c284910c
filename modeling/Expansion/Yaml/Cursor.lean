/-!
  A place in a YAML text.

  A cursor holds the characters still to be read and counts octets, lines and columns; a column is a
  character wide.  A loop over a cursor may take as many turns as there are characters left; every
  turn but the last uses some up.
-/

namespace Expansion.Yaml

/-- Why a text is not a YAML document. -/
structure Fault where
  reason : String
  deriving DecidableEq, Repr

/-- A space or a tab. -/
def isBlank (c : Char) : Bool := c == ' ' || c == '\t'

/-- A line break. -/
def isBreak (c : Char) : Bool :=
  c == '\r' || c == '\n' || c == '\x85' || c == '\u2028' || c == '\u2029'

/-- Holds at the end of the text, too. -/
def orEnd (p : Char → Bool) : Option Char → Bool
  | none => true
  | some c => p c

/-- A blank, a line break, or the end. -/
def isBlankEnd : Option Char → Bool := orEnd fun c => isBlank c || isBreak c

/-- A line break or the end. -/
def isBreakEnd : Option Char → Bool := orEnd isBreak

/-- Letters, digits, the underscore and the hyphen. -/
def isWord (c : Char) : Bool := c.isAlphanum || c == '_' || c == '-'

/-- The number of octets that characters take. -/
def octetCount (chars : List Char) : Nat := chars.foldl (fun n c => n + c.utf8Size) 0

/-- A place in the text. -/
structure Cursor where
  rest : List Char
  /-- The number of octets before it. -/
  index : Nat
  line : Nat
  column : Nat
  deriving Repr

/-- What a turn of a loop decides. -/
inductive Turn (σ α : Type)
  | again (state : σ)
  | done (result : α)

namespace Cursor

/-- The beginning of a text. -/
def start (text : List Char) : Cursor := ⟨text, 0, 0, 0⟩

/-- The next character. -/
def peek? (c : Cursor) : Option Char := c.rest.head?

/-- A character further on. -/
def peekAt? (c : Cursor) (n : Nat) : Option Char := c.rest[n]?

/-- Past the next `n` characters, none of them a line break. -/
def skip (c : Cursor) (n : Nat) : Cursor :=
  let taken := c.rest.take n
  { c with
    rest := c.rest.drop n
    index := c.index + octetCount taken
    column := c.column + taken.length }

/-- Past the characters with a property, none of them a line break. -/
def skipWhile (p : Char → Bool) (c : Cursor) : Cursor :=
  let taken := c.rest.takeWhile p
  { c with
    rest := c.rest.dropWhile p
    index := c.index + octetCount taken
    column := c.column + taken.length }

/-- The characters with a property, none of them a line break, and the place after them. -/
def takeWhile (p : Char → Bool) (c : Cursor) : List Char × Cursor :=
  (c.rest.takeWhile p, c.skipWhile p)

/-- The line break here as it counts in a text, and the place after it. -/
def takeBreak (c : Cursor) : List Char × Cursor :=
  match c.rest with
  | '\r' :: '\n' :: rest => (['\n'], ⟨rest, c.index + 2, c.line + 1, 0⟩)
  | b :: rest =>
    let next : Cursor := ⟨rest, c.index + b.utf8Size, c.line + 1, 0⟩
    if b == '\r' || b == '\n' || b == '\x85' then (['\n'], next)
    else if isBreak b then ([b], next)
    else ([], c)
  | [] => ([], c)

/-- Past the line break here. -/
def skipBreak (c : Cursor) : Cursor := c.takeBreak.2

/-- The cursor stands at a document marker: three of `mark` at the start of a line. -/
def atMarker (mark : Char) (c : Cursor) : Bool :=
  c.column == 0 && c.rest.take 3 == [mark, mark, mark] && isBlankEnd (c.peekAt? 3)

variable {σ α : Type}

/-- Takes turns until one is the last; `turns` bounds their number. -/
def loopWithin (turn : σ → Cursor → Except Fault (Turn σ α × Cursor)) :
    (turns : Nat) → σ → Cursor → Except Fault (α × Cursor)
  | 0, _, _ => .error ⟨"no progress"⟩
  | turns + 1, state, c => do
    match ← turn state c with
    | (.done result, c) => return (result, c)
    | (.again state, c) => loopWithin turn turns state c

/-- Takes turns from a state until one is the last. -/
def loop (c : Cursor) (state : σ) (turn : σ → Cursor → Except Fault (Turn σ α × Cursor)) :
    Except Fault (α × Cursor) :=
  loopWithin turn (c.rest.length + 2) state c

end Cursor

end Expansion.Yaml
