import Expansion.Yaml.Tag

/-!
  The tokens of a YAML text.

  Tokens mark where collections, keys and values start and end.  In block style these places follow
  from indentation; and that something was a key shows only at the colon after it, so the token for
  the key is put in afterwards, in front of what turned out to be the key.  A key without a question
  mark must end on its line, within 1024 octets.
-/

namespace Expansion.Yaml

/-- A token. -/
inductive Token
  | streamEnd
  | version (major minor : Nat)
  | tagHandle (handle : String) (stem : Tag)
  | documentStart
  | documentEnd
  | blockSequenceStart
  | blockMappingStart
  | blockEnd
  | flowSequenceStart
  | flowSequenceEnd
  | flowMappingStart
  | flowMappingEnd
  | blockEntry
  | flowEntry
  | key
  | value
  | alias (name : String)
  | anchor (name : String)
  | tag (handle : String) (suffix : Tag)
  | scalar (text : String) (plain : Bool)
  deriving DecidableEq, Repr, Inhabited

/-- A place where a key may have started. -/
structure PossibleKey where
  /-- A colon must follow, since nothing else may stand at this column. -/
  required : Bool
  /-- The number of tokens before it. -/
  position : Nat
  index : Nat
  line : Nat
  column : Nat
  deriving Repr

/-- The tokens so far and what the next ones depend on. -/
structure Scan where
  cursor : Cursor
  tokens : Array Token
  /-- The columns of the open block collections, innermost first. -/
  indents : List Nat
  /-- Where the last key of each bracket level may have started, innermost level first; the last
  entry belongs to the text outside all brackets. -/
  keys : List (Option PossibleKey)
  /-- A key may start here without a question mark. -/
  keyAllowed : Bool

namespace Scan

/-- The beginning of a text. -/
def start (text : List Char) : Scan := ⟨Cursor.start text, #[], [], [none], true⟩

/-- Inside brackets. -/
def flow (s : Scan) : Bool := 1 < s.keys.length

/-- The column of the innermost block collection. -/
def indent (s : Scan) : Int :=
  match s.indents with
  | [] => -1
  | n :: _ => n

/-- Adds a token. -/
def push (s : Scan) (token : Token) : Scan := { s with tokens := s.tokens.push token }

/-- Adds a token and skips the characters that write it. -/
def pushSkip (s : Scan) (token : Token) (count : Nat) : Scan :=
  { s with tokens := s.tokens.push token, cursor := s.cursor.skip count }

/-- Ends the block collections that are deeper than a column. -/
def unroll (s : Scan) (column : Int) : Scan :=
  if s.flow then s
  else
    let deeper := fun (n : Nat) => decide (column < (n : Int))
    let closed := (s.indents.takeWhile deeper).map fun _ => Token.blockEnd
    { s with tokens := s.tokens ++ closed, indents := s.indents.dropWhile deeper }

/-- Starts a block collection at a column if it is deeper than the innermost one; its token goes
before the token at `position`, or to the end. -/
def roll (s : Scan) (column : Nat) (position : Option Nat) (token : Token) : Scan :=
  if s.flow || (column : Int) ≤ s.indent then s
  else
    let tokens :=
      match position with
      | some position => s.tokens.insertIdxIfInBounds position token
      | none => s.tokens.push token
    { s with tokens, indents := column :: s.indents }

/-! ## Possible keys -/

/-- Gives up a possible key; a required one must not be given up. -/
def dropKey (key : Option PossibleKey) : Except Fault (Option PossibleKey) :=
  if key.any (·.required) then .error ⟨"a key without a colon"⟩ else .ok none

/-- Gives up the possible key of the innermost level. -/
def removeKey (s : Scan) : Except Fault Scan := do
  match s.keys with
  | [] => return s
  | key :: outer =>
    let key ← dropKey key
    return { s with keys := key :: outer }

/-- A key may have started here. -/
def saveKey (s : Scan) : Except Fault Scan := do
  if !s.keyAllowed then return s
  let s ← s.removeKey
  let c := s.cursor
  let required := !s.flow && s.indent == (c.column : Int)
  return { s with keys := some ⟨required, s.tokens.size, c.index, c.line, c.column⟩ :: s.keys.tail }

/-- Gives up the keys that started on an earlier line or too long ago. -/
def staleKeys (s : Scan) : Except Fault Scan := do
  let c := s.cursor
  let keys ← s.keys.mapM fun key =>
    if key.any fun key => key.line < c.line || key.index + 1024 < c.index then dropKey key
    else .ok key
  return { s with keys }

/-! ## Between tokens -/

/-- Skips blanks, comments and empty lines.  A line may start with a byte order mark. -/
def toNextToken (s : Scan) : Except Fault Scan := do
  let (s, c) ← s.cursor.loop s fun s c =>
    let c := if c.column == 0 && c.peek? == some '\ufeff' then c.skip 1 else c
    let tabs := s.flow || !s.keyAllowed
    let c := c.skipWhile fun d => d == ' ' || (tabs && d == '\t')
    let c := if c.peek? == some '#' then c.skipWhile (fun d => !isBreak d) else c
    if c.peek?.any isBreak then
      .ok (.again (if s.flow then s else { s with keyAllowed := true }), c.skipBreak)
    else .ok (.done s, c)
  return { s with cursor := c }

/-! ## Directives -/

/-- A version number of a directive: up to nine digits. -/
def readVersion (c : Cursor) : Except Fault (Nat × Cursor) :=
  let (digits, c) := c.takeWhile Char.isDigit
  if digits.isEmpty || 9 < digits.length then .error ⟨"a version number"⟩
  else .ok (digits.foldl (fun n d => n * 10 + (d.toNat - '0'.toNat)) 0, c)

/-- A tag or the rest of one; `start` comes first, without its exclamation mark. -/
def readTagText (wide : Bool) (start : List Char) (c : Cursor) :
    Except Fault (Tag × Cursor) := do
  let (chars, c) := c.takeWhile (Tag.isTagChar wide)
  if start.isEmpty && chars.isEmpty then throw ⟨"a tag is empty"⟩
  return (← Tag.ofChars (start.drop 1 ++ chars), c)

/-- The handle of a tag: an exclamation mark, a word, and perhaps a second mark, which a directive
may leave out only after no word. -/
def readHandle (directive : Bool) (c : Cursor) : Except Fault (List Char × Cursor) :=
  if c.peek? != some '!' then .error ⟨"a tag handle"⟩
  else
    let (word, c) := (c.skip 1).takeWhile isWord
    if c.peek? == some '!' then .ok ('!' :: word ++ ['!'], c.skip 1)
    else if directive && !word.isEmpty then .error ⟨"a tag handle"⟩
    else .ok ('!' :: word, c)

/-- A directive, from after its percent sign. -/
def readDirective (c : Cursor) : Except Fault (Token × Cursor) := do
  let (name, c) := c.takeWhile isWord
  if name.isEmpty || !isBlankEnd c.peek? then throw ⟨"a directive"⟩
  let c := c.skipWhile isBlank
  let (token, c) ←
    if name == "YAML".toList then
      let (major, c) ← readVersion c
      if c.peek? != some '.' then throw ⟨"a version number"⟩
      let (minor, c) ← readVersion (c.skip 1)
      pure (Token.version major minor, c)
    else if name == "TAG".toList then
      let (handle, c) ← readHandle true c
      if !c.peek?.any isBlank then throw ⟨"a tag directive"⟩
      let (stem, c) ← readTagText true [] (c.skipWhile isBlank)
      if !isBlankEnd c.peek? then throw ⟨"a tag directive"⟩
      pure (Token.tagHandle (String.ofList handle) stem, c)
    else throw ⟨"an unknown directive"⟩
  let c := c.skipWhile isBlank
  let c := if c.peek? == some '#' then c.skipWhile (fun d => !isBreak d) else c
  if !isBreakEnd c.peek? then throw ⟨"text after a directive"⟩
  return (token, c.skipBreak)

/-! ## Properties of nodes -/

/-- The name of an anchor or alias, from after its indicator. -/
def readAnchorName (c : Cursor) : Except Fault (String × Cursor) :=
  let (name, c) := c.takeWhile isWord
  let ends := isBlankEnd c.peek? || c.peek?.any fun d => "?:,]\x7d%@`".toList.contains d
  if name.isEmpty || !ends then .error ⟨"an anchor"⟩ else .ok (String.ofList name, c)

/-- A tag: written out between angle brackets, or a handle and a suffix. -/
def readTag (flow : Bool) (c : Cursor) : Except Fault (Token × Cursor) := do
  let (token, c) ←
    if c.peekAt? 1 == some '<' then
      let (text, c) ← readTagText true [] (c.skip 2)
      if c.peek? != some '>' then throw ⟨"a tag"⟩
      pure (Token.tag "" text, c.skip 1)
    else
      let (handle, c) ← readHandle false c
      if 1 < handle.length && handle.getLast? == some '!' then
        let (suffix, c) ← readTagText false [] c
        pure (Token.tag (String.ofList handle) suffix, c)
      else
        let (suffix, c) ← readTagText false handle c
        if suffix.isEmpty then pure (Token.tag "" .mark, c) else pure (Token.tag "!" suffix, c)
  if isBlankEnd c.peek? || (flow && c.peek? == some ',') then return (token, c)
  else throw ⟨"text after a tag"⟩

/-! ## One token -/

/-- A document marker, or the end of the text, ends all block collections. -/
def closeAll (s : Scan) : Except Fault Scan := do
  let s ← (s.unroll (-1)).removeKey
  return { s with keyAllowed := false }

/-- An opening bracket. -/
def openFlow (s : Scan) (token : Token) : Except Fault Scan := do
  let s ← s.saveKey
  return { s.pushSkip token 1 with keys := none :: s.keys, keyAllowed := true }

/-- A closing bracket. -/
def closeFlow (s : Scan) (token : Token) : Except Fault Scan := do
  let s ← s.removeKey
  let keys := if s.flow then s.keys.tail else s.keys
  return { s.pushSkip token 1 with keys, keyAllowed := false }

/-- The hyphen of an element. -/
def blockEntry (s : Scan) : Except Fault Scan := do
  if !s.flow && !s.keyAllowed then throw ⟨"an element is not allowed here"⟩
  let s := s.roll s.cursor.column none .blockSequenceStart
  let s ← s.removeKey
  return { s.pushSkip .blockEntry 1 with keyAllowed := true }

/-- The question mark of a key. -/
def explicitKey (s : Scan) : Except Fault Scan := do
  if !s.flow && !s.keyAllowed then throw ⟨"a key is not allowed here"⟩
  let s := s.roll s.cursor.column none .blockMappingStart
  let s ← s.removeKey
  return { s.pushSkip .key 1 with keyAllowed := !s.flow }

/-- The colon before a value; what came before it on the line turns out to be the key. -/
def mappingValue (s : Scan) : Except Fault Scan := do
  match s.keys with
  | some key :: outer =>
    let s := { s with tokens := s.tokens.insertIdxIfInBounds key.position .key }
    let s := s.roll key.column (some key.position) .blockMappingStart
    return { s.pushSkip .value 1 with keys := none :: outer, keyAllowed := false }
  | _ =>
    if !s.flow && !s.keyAllowed then throw ⟨"a value is not allowed here"⟩
    let s := s.roll s.cursor.column none .blockMappingStart
    return { s.pushSkip .value 1 with keyAllowed := !s.flow }

/-- A token read by `read` at which a key may start. -/
def keyed (s : Scan) (read : Cursor → Except Fault (Token × Cursor)) : Except Fault Scan := do
  let s ← s.saveKey
  let (token, cursor) ← read s.cursor
  return { s.push token with cursor, keyAllowed := false }

/-- A plain scalar. -/
def plain (s : Scan) : Except Fault Scan := do
  let s ← s.saveKey
  let ((text, broken), cursor) ← readPlain s.flow s.indent s.cursor
  return { s.push (.scalar text true) with cursor, keyAllowed := broken }

/-- A block scalar. -/
def block (s : Scan) (literal : Bool) : Except Fault Scan := do
  let s ← s.removeKey
  let (text, cursor) ← readBlock literal s.indent (s.cursor.skip 1)
  return { s.push (.scalar text false) with cursor, keyAllowed := true }

/-- A plain scalar may start with this character and the one after it. -/
def startsPlain (flow : Bool) (d : Char) (after : Option Char) : Bool :=
  !(isBlank d || isBreak d || "-?:,[]\x7b\x7d#&*!|>'\"%@`".toList.contains d)
    || (d == '-' && !after.any isBlank)
    || (!flow && (d == '?' || d == ':') && !isBlankEnd after)

/-- Reads the next token, and the tokens that indentation puts before it. -/
def next (s : Scan) : Except Fault Scan := do
  let s ← s.toNextToken
  let s ← s.staleKeys
  let s := s.unroll s.cursor.column
  let c := s.cursor
  let after := c.peekAt? 1
  match c.peek? with
  | none => return (← s.closeAll).push .streamEnd
  | some d =>
    if c.column == 0 && d == '%' then
      let s ← s.closeAll
      let (token, cursor) ← readDirective (c.skip 1)
      return { s.push token with cursor }
    else if c.atMarker '-' then return (← s.closeAll).pushSkip .documentStart 3
    else if c.atMarker '.' then return (← s.closeAll).pushSkip .documentEnd 3
    else if d == '[' then s.openFlow .flowSequenceStart
    else if d == '\x7b' then s.openFlow .flowMappingStart
    else if d == ']' then s.closeFlow .flowSequenceEnd
    else if d == '\x7d' then s.closeFlow .flowMappingEnd
    else if d == ',' then
      let s ← s.removeKey
      return { s.pushSkip .flowEntry 1 with keyAllowed := true }
    else if d == '-' && isBlankEnd after then s.blockEntry
    else if d == '?' && (s.flow || isBlankEnd after) then s.explicitKey
    else if d == ':' && (s.flow || isBlankEnd after) then s.mappingValue
    else if d == '*' then
      s.keyed fun c => (readAnchorName (c.skip 1)).map fun (name, c) => (.alias name, c)
    else if d == '&' then
      s.keyed fun c => (readAnchorName (c.skip 1)).map fun (name, c) => (.anchor name, c)
    else if d == '!' then s.keyed (readTag s.flow)
    else if d == '|' && !s.flow then s.block true
    else if d == '>' && !s.flow then s.block false
    else if d == '\'' then
      s.keyed fun c => (readQuoted true (c.skip 1)).map fun (text, c) => (.scalar text false, c)
    else if d == '"' then
      s.keyed fun c => (readQuoted false (c.skip 1)).map fun (text, c) => (.scalar text false, c)
    else if startsPlain s.flow d after then s.plain
    else throw ⟨"a character that starts nothing"⟩

end Scan

/-- Characters that a text may hold. -/
def isAllowed (c : Char) : Bool :=
  c == '\t' || c == '\n' || c == '\r' || (' ' ≤ c && c ≤ '~') || c == '\x85'
    || ('\xa0' ≤ c && c ≤ '\ufffd') || 0x10000 ≤ c.toNat

/-- The tokens of a text. -/
def tokens (text : String) : Except Fault (List Token) := do
  let chars := text.toList
  if !chars.all isAllowed then throw ⟨"a control character"⟩
  let (tokens, _) ← (Cursor.start chars).loop (Scan.start chars) fun s _ => do
    let s ← s.next
    let turn := if s.tokens.back? == some .streamEnd then .done s.tokens else .again s
    return (turn, s.cursor)
  return tokens.toList

end Expansion.Yaml
