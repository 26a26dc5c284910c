import Expansion.Yaml.Cursor

/-!
  The texts of YAML scalars.

  Plain and quoted scalars fold their line breaks: one break between words counts as a space, and of
  several the first is dropped.  Block scalars keep their lines, or fold those that do not start
  with a blank; the break after the last line stays once, or not at all, or with all that follow it.
-/

namespace Expansion.Yaml

/-! ## Gaps between words -/

/-- Blanks and line breaks between two words. -/
structure Gap where
  /-- Blanks before the first break. -/
  blanks : List Char
  /-- A break was seen. -/
  broken : Bool
  /-- The first break as it counts in the text. -/
  first : List Char
  /-- The breaks after it. -/
  more : List Char

/-- Nothing between two words. -/
def Gap.none : Gap := ⟨[], false, [], []⟩

/-- What a gap contributes to the text. -/
def Gap.folded (gap : Gap) : List Char :=
  if !gap.broken then gap.blanks
  else if gap.first = ['\n'] then (if gap.more.isEmpty then [' '] else gap.more)
  else gap.first ++ gap.more

/-- Reads on through blanks and breaks.  `tabLimit` is the column before which a tab may not stand
in a new line. -/
def readGap (tabLimit : Option Int) (gap : Gap) (c : Cursor) : Except Fault (Gap × Cursor) :=
  c.loop gap fun gap c =>
    match c.peek? with
    | some b =>
      if isBlank b then
        if !gap.broken then .ok (.again { gap with blanks := gap.blanks ++ [b] }, c.skip 1)
        else
          let violates := tabLimit.any fun limit => (c.column : Int) < limit
          if b == '\t' && violates then .error ⟨"a tab in the indentation"⟩
          else .ok (.again gap, c.skip 1)
      else if isBreak b then
        let (line, c) := c.takeBreak
        if gap.broken then .ok (.again { gap with more := gap.more ++ line }, c)
        else .ok (.again ⟨[], true, line, gap.more⟩, c)
      else .ok (.done gap, c)
    | .none => .ok (.done gap, c)

/-! ## Plain scalars -/

/-- Characters that end a plain scalar inside brackets. -/
def isFlowIndicator (c : Char) : Bool := [',', '[', ']', '\x7b', '\x7d'].contains c

/-- The characters of a plain scalar up to a blank, a break, or an indicator that ends it. -/
def plainWord (flow : Bool) : List Char → Except Fault (List Char)
  | [] => .ok []
  | c :: rest =>
    if isBlank c || isBreak c then .ok []
    else if c == ':' && flow && rest.head?.any fun d => isFlowIndicator d || d == '?' then
      .error ⟨"an unexpected ':'"⟩
    else if (c == ':' && isBlankEnd rest.head?) || (flow && isFlowIndicator c) then .ok []
    else (plainWord flow rest).map (c :: ·)

/-- A plain scalar in a collection of the given indentation, and whether it ended after a line
break. -/
def readPlain (flow : Bool) (indent : Int) (c : Cursor) : Except Fault ((String × Bool) × Cursor) :=
  c.loop ("", Gap.none) fun (text, gap) c =>
    if c.atMarker '-' || c.atMarker '.' || c.peek? == some '#' then
      .ok (.done (text, gap.broken), c)
    else do
      let word ← plainWord flow c.rest
      let c := c.skip word.length
      let (text, gap) :=
        if word.isEmpty then (text, gap)
        else (text ++ String.ofList gap.folded ++ String.ofList word, Gap.none)
      match c.peek? with
      | some b =>
        if isBlank b || isBreak b then
          let (gap, c) ← readGap (some (indent + 1)) gap c
          if !flow && (c.column : Int) < indent + 1 then return (.done (text, gap.broken), c)
          else return (.again (text, gap), c)
        else return (.done (text, gap.broken), c)
      | none => return (.done (text, gap.broken), c)

/-! ## Quoted scalars -/

/-- The value of a hexadecimal digit. -/
def hexValue? (c : Char) : Option Nat :=
  if '0' ≤ c ∧ c ≤ '9' then some (c.toNat - '0'.toNat)
  else if 'a' ≤ c ∧ c ≤ 'f' then some (c.toNat - 'a'.toNat + 10)
  else if 'A' ≤ c ∧ c ≤ 'F' then some (c.toNat - 'A'.toNat + 10)
  else none

/-- The character that a letter stands for after a backslash. -/
def escapeChar? (letter : Char) : Option Char :=
  match letter with
  | '0' => some '\x00'
  | 'a' => some '\x07'
  | 'b' => some '\x08'
  | 't' => some '\t'
  | '\t' => some '\t'
  | 'n' => some '\n'
  | 'v' => some '\x0b'
  | 'f' => some '\x0c'
  | 'r' => some '\r'
  | 'e' => some '\x1b'
  | ' ' => some ' '
  | '"' => some '"'
  | '/' => some '/'
  | '\\' => some '\\'
  | 'N' => some '\x85'
  | '_' => some '\xa0'
  | 'L' => some '\u2028'
  | 'P' => some '\u2029'
  | _ => none

/-- The number of digits after a letter that gives a character by its code. -/
def escapeWidth? (letter : Char) : Option Nat :=
  match letter with
  | 'x' => some 2
  | 'u' => some 4
  | 'U' => some 8
  | _ => none

/-- The character written by an escape, from after the backslash, and the number of characters that
the escape takes. -/
def readEscape (rest : List Char) : Except Fault (Char × Nat) :=
  match rest with
  | [] => .error ⟨"an unknown escape"⟩
  | letter :: rest =>
    match escapeChar? letter with
    | some c => .ok (c, 1)
    | none =>
      match escapeWidth? letter with
      | none => .error ⟨"an unknown escape"⟩
      | some width =>
        let digits := rest.take width
        match digits.mapM hexValue? with
        | none => .error ⟨"a digit is missing in an escape"⟩
        | some values =>
          let code := values.foldl (fun n d => n * 16 + d) 0
          if values.length < width then .error ⟨"a digit is missing in an escape"⟩
          else if (0xd800 ≤ code ∧ code ≤ 0xdfff) ∨ 0x10ffff < code then
            .error ⟨"an escape for no character"⟩
          else .ok (Char.ofNat code, 1 + width)

/-- What one turn inside quotes reads: more text, the closing quote, or an escaped line break. -/
inductive QuotedPart
  | text (added : List Char)
  | close
  | joined

/-- Reads the next character inside quotes, which is neither a blank nor a break. -/
def readQuotedPart (single : Bool) (c : Cursor) : Except Fault (QuotedPart × Cursor) :=
  let quote := if single then '\'' else '"'
  match c.rest with
  | [] => .ok (.close, c)
  | d :: rest =>
    if single && d == quote && rest.head? == some quote then .ok (.text [quote], c.skip 2)
    else if d == quote then .ok (.close, c)
    else if !single && d == '\\' then
      if rest.head?.any isBreak then .ok (.joined, (c.skip 1).skipBreak)
      else do
        let (e, width) ← readEscape rest
        return (.text [e], c.skip (1 + width))
    else .ok (.text [d], c.skip 1)

/-- A quoted scalar, from after its opening quote up to and with the closing one. -/
def readQuoted (single : Bool) (c : Cursor) : Except Fault (String × Cursor) :=
  c.loop ("", true) fun (text, fresh) c =>
    -- `fresh` holds where a new word may start: at the opening quote and after a gap.
    if fresh && (c.atMarker '-' || c.atMarker '.') then .error ⟨"a document marker inside quotes"⟩
    else
      match c.peek? with
      | none => .error ⟨"the text ends inside quotes"⟩
      | some d =>
        if isBlank d || isBreak d then do
          let (gap, c) ← readGap none Gap.none c
          return (.again (text ++ String.ofList gap.folded, true), c)
        else do
          match ← readQuotedPart single c with
          | (.close, c) => return (.done text, c.skip 1)
          | (.text added, c) => return (.again (text ++ String.ofList added, false), c)
          | (.joined, c) =>
            if c.peek? == some '"' then return (.again (text, false), c)
            else
              let (gap, c) ← readGap none ⟨[], true, [], []⟩ c
              return (.again (text ++ String.ofList gap.folded, true), c)

/-! ## Block scalars -/

/-- What becomes of the breaks after the last line. -/
inductive Chomping
  | strip | clip | keep
  deriving DecidableEq, Repr

/-- The indicators after the start of a block scalar: what to do with the last breaks, and the
indentation, in either order. -/
def readHeader (c : Cursor) : Except Fault ((Chomping × Option Nat) × Cursor) :=
  let chomping? (c : Cursor) : Option Chomping :=
    match c.peek? with
    | some '+' => some .keep
    | some '-' => some .strip
    | _ => none
  let indent? (c : Cursor) : Except Fault (Option Nat) :=
    match c.peek? with
    | some '0' => .error ⟨"an indentation of zero"⟩
    | some d => .ok (if d.isDigit then some (d.toNat - '0'.toNat) else none)
    | none => .ok none
  match chomping? c with
  | some chomping => do
    let c := c.skip 1
    match ← indent? c with
    | some n => return ((chomping, some n), c.skip 1)
    | none => return ((chomping, none), c)
  | none => do
    match ← indent? c with
    | some n =>
      let c := c.skip 1
      match chomping? c with
      | some chomping => return ((chomping, some n), c.skip 1)
      | none => return ((.clip, some n), c)
    | none => return ((.clip, none), c)

/-- Eats indentation and empty lines.  Without a known indentation the deepest line so far decides,
but it is at least `least`.  Answers the indentation and the breaks. -/
def readBlockBreaks (indent : Option Nat) (least : Nat) (c : Cursor) :
    Except Fault ((Nat × List Char) × Cursor) :=
  c.loop (0, []) fun (deepest, breaks) c => do
    let inside (c : Cursor) : Bool := indent.all fun n => c.column < n
    let spaces := (c.rest.takeWhile (· == ' ')).length
    let c := c.skip (match indent with
      | some n => min spaces (n - c.column)
      | none => spaces)
    let deepest := max deepest c.column
    if inside c && c.peek? == some '\t' then throw ⟨"a tab in the indentation"⟩
    if c.peek?.any isBreak then
      let (line, c) := c.takeBreak
      return (.again (deepest, breaks ++ line), c)
    else return (.done (indent.getD (max deepest least), breaks), c)

/-- A block scalar so far: its text, the break after its last line, the breaks after that one, and
whether its last line started with a blank. -/
structure BlockText where
  text : String
  lastBreak : List Char
  breaks : List Char
  blank : Bool

/-- A block scalar in a collection of the given indentation, from after its indicator. -/
def readBlock (literal : Bool) (indent : Int) (c : Cursor) : Except Fault (String × Cursor) := do
  let ((chomping, increment), c) ← readHeader c
  let c := c.skipWhile isBlank
  let c := if c.peek? == some '#' then c.skipWhile (fun d => !isBreak d) else c
  if !isBreakEnd c.peek? then throw ⟨"text after the start of a block scalar"⟩
  let c := c.skipBreak
  let least := max 1 (indent + 1).toNat
  let given := increment.map fun (n : Nat) => if 0 ≤ indent then (indent + n).toNat else n
  let ((column, breaks), c) ← readBlockBreaks given least c
  let (block, c) ← c.loop (BlockText.mk "" [] breaks false) fun block c => do
    if c.column != column || c.rest.isEmpty then return (.done block, c)
    let blank := c.peek?.any isBlank
    let joint :=
      if !literal && block.lastBreak = ['\n'] && !block.blank && !blank then
        if block.breaks.isEmpty then [' '] else []
      else block.lastBreak
    let (line, c) := c.takeWhile fun d => !isBreak d
    let (lastBreak, c) := c.takeBreak
    let ((_, breaks), c') ← readBlockBreaks (some column) least c
    let text := block.text ++ String.ofList (joint ++ block.breaks ++ line)
    return (.again ⟨text, lastBreak, breaks, blank⟩, c')
  let tail :=
    match chomping with
    | .strip => []
    | .clip => block.lastBreak
    | .keep => block.lastBreak ++ block.breaks
  return (block.text ++ String.ofList tail, c)

end Expansion.Yaml
