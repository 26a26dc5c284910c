import Expansion.Yaml.Event
import Expansion.Yaml.Scalar

/-!
  The data of a YAML document.

  Raw nodes are what the events spell out: scalars as text, aliases as references.  An anchor is
  filed under the number of names known before it, and an alias stands for the node that was filed
  last under the number its name had at that point.  In a datum, plain scalars are resolved and
  aliases replaced; collections nest at most 128 deep, and the keys of a mapping differ.
-/

namespace Expansion.Yaml

/-- A node as written. -/
inductive Raw
  | alias (target : Nat)
  | scalar (tag : Option Tag) (text : String) (plain : Bool)
  | sequence (tag : Option Tag) (items : List Raw)
  | mapping (tag : Option Tag) (entries : List (Raw × Raw))
  deriving Inhabited

/-- What a node stands for. -/
inductive Datum
  | null
  | boolean (b : Bool)
  | number (n : Numeral)
  | string (s : String)
  | sequence (items : List Datum)
  | mapping (entries : List (Datum × Datum))
  | tagged (name : String) (datum : Datum)
  deriving Inhabited

/-! ## Raw nodes from events -/

/-- An open collection, its parts in reverse order. -/
structure Open where
  /-- The number of events before it. -/
  position : Nat
  anchored : Bool
  tag : Option Tag
  mapping : Bool
  parts : List Raw

/-- Takes the parts of a mapping in pairs. -/
def pairs : List Raw → List (Raw × Raw)
  | key :: value :: rest => (key, value) :: pairs rest
  | _ => []

/-- Raw nodes under construction. -/
structure Composition where
  position : Nat
  opened : List Open
  /-- The number under which each name was last filed. -/
  names : List (String × Nat)
  /-- The position of the node filed last under each number. -/
  filed : List (Nat × Nat)
  /-- The finished nodes with an anchor, by position. -/
  anchors : List (Nat × Raw)
  root : Option Raw

namespace Composition

/-- Before the first event. -/
def start : Composition := ⟨0, [], [], [], [], none⟩

/-- Files the node that starts here, if it has an anchor. -/
def file (c : Composition) (anchor : Option String) : Composition :=
  match anchor with
  | none => c
  | some name =>
    let id := c.names.length
    let others := c.names.filter fun entry => entry.1 ≠ name
    { c with names := (name, id) :: others, filed := (id, c.position) :: c.filed }

/-- Puts a finished node where it belongs. -/
def add (c : Composition) (position : Nat) (anchored : Bool) (raw : Raw) : Composition :=
  let c := if anchored then { c with anchors := (position, raw) :: c.anchors } else c
  match c.opened with
  | [] => { c with root := some raw }
  | inner :: outer => { c with opened := { inner with parts := raw :: inner.parts } :: outer }

/-- Opens a collection. -/
def enter (c : Composition) (properties : Properties) (mapping : Bool) : Composition :=
  let opened := ⟨c.position, properties.anchor.isSome, properties.tag, mapping, []⟩
  { c.file properties.anchor with opened := opened :: c.opened }

/-- Closes the innermost collection. -/
def leave (c : Composition) : Composition :=
  match c.opened with
  | [] => c
  | inner :: outer =>
    let parts := inner.parts.reverse
    let raw :=
      if inner.mapping then Raw.mapping inner.tag (pairs parts) else Raw.sequence inner.tag parts
    { c with opened := outer }.add inner.position inner.anchored raw

/-- Takes in one event. -/
def feed (c : Composition) (event : Event) : Except Fault Composition := do
  let c ←
    match event with
    | .alias name =>
      match c.names.find? fun entry => entry.1 = name with
      | some (_, id) => pure (c.add c.position false (.alias id))
      | none => throw ⟨"an unknown anchor"⟩
    | .scalar properties text plain =>
      let raw := Raw.scalar properties.tag text plain
      pure ((c.file properties.anchor).add c.position properties.anchor.isSome raw)
    | .sequenceStart properties => pure (c.enter properties false)
    | .mappingStart properties => pure (c.enter properties true)
    | .sequenceEnd | .mappingEnd => pure c.leave
  return { c with position := c.position + 1 }

/-- The node that an alias stands for. -/
def target? (c : Composition) (id : Nat) : Option Raw := do
  let (_, position) ← c.filed.find? fun entry => entry.1 = id
  let (_, raw) ← c.anchors.find? fun entry => entry.1 = position
  return raw

end Composition

/-! ## Data from raw nodes -/

namespace Datum

mutual

/-- Two data are the same; the order of the entries of a mapping does not count. -/
def same : Datum → Datum → Bool
  | null, null => true
  | boolean a, boolean b => a == b
  | number (.real a), number (.real b) => a == b || (a.isZero && b.isZero)
  | number a, number b => a == b
  | string a, string b => a == b
  | sequence as, sequence bs => sameItems as bs
  | mapping as, mapping bs => as.length == bs.length && sameEntries as bs
  | tagged t a, tagged u b => t == u && same a b
  | _, _ => false

/-- Two sequences have the same elements. -/
def sameItems : List Datum → List Datum → Bool
  | [], [] => true
  | a :: as, b :: bs => same a b && sameItems as bs
  | _, _ => false

/-- Every entry of the first mapping is one of the second. -/
def sameEntries : List (Datum × Datum) → List (Datum × Datum) → Bool
  | [], _ => true
  | (k, a) :: as, bs => bs.any (fun (l, b) => same k l && same a b) && sameEntries as bs

end

/-- A plain scalar without a tag. -/
def ofPlain (text : String) : Except Fault Datum :=
  match resolve text with
  | .null => .ok .null
  | .boolean b => .ok (.boolean b)
  | .number (.whole n) => if Number.fits n then .ok (.number (.whole n)) else .error ⟨"a number"⟩
  | .number n => .ok (.number n)
  | .text => .ok (.string text)

/-- A scalar that a standard tag puts into a form, or a text. -/
def ofTagged (tag : Tag) (text : String) : Except Fault Datum :=
  let or? (datum? : Option Datum) : Except Fault Datum :=
    match datum? with
    | some datum => .ok datum
    | none => .error ⟨"a scalar that does not fit its tag"⟩
  let chars := text.toList
  if tag = .standard "bool" then or? ((boolean? text).map .boolean)
  else if tag = .standard "int" then
    or? (((whole? chars).filter Number.fits).map fun n => .number (.whole n))
  else if tag = .standard "float" then or? ((real? chars).map .number)
  else if tag = .standard "null" then or? (if isNull text then some .null else none)
  else .ok (.string text)

/-- Keeps the name that a tag gives its node, if it gives one. -/
def withTag (tag : Option Tag) (datum : Datum) : Datum :=
  match tag.bind Tag.name? with
  | some name => .tagged name datum
  | none => datum

/-- A scalar.  With a local tag it is taken as if it had none. -/
def ofScalar (tag : Option Tag) (text : String) (plain : Bool) : Except Fault Datum :=
  let untagged := if plain then ofPlain text else .ok (.string text)
  match tag with
  | none => untagged
  | some t => if t.isLocal then untagged.map (withTag tag) else ofTagged t text

/-- The greatest number of collections that may nest. -/
def maxNesting : Nat := 128

/-- A datum under construction, with the number of aliases followed so far. -/
abbrev Build (α : Type) := StateT Nat (Except Fault) α

/-- The node that an alias stands for, or the node itself.  `limit` is the greatest number of
aliases that may be followed. -/
def follow (c : Composition) (limit : Nat) (raw : Raw) : Build Raw := do
  match raw with
  | .alias id =>
    let jumps ← get
    if limit ≤ jumps then throw ⟨"too many aliases"⟩
    set (jumps + 1)
    match c.target? id with
    | some raw => return raw
    | none => throw ⟨"an unknown anchor"⟩
  | raw => return raw

/-- The entries of a mapping; no two keys are the same. -/
def buildEntries (build : Raw → Build Datum) :
    List (Datum × Datum) → List (Raw × Raw) → Build (List (Datum × Datum))
  | done, [] => return done.reverse
  | done, (key, value) :: rest => do
    let key ← build key
    if done.any fun (other, _) => other.same key then throw ⟨"a key is given twice"⟩
    let value ← build value
    buildEntries build ((key, value) :: done) rest

/-- The datum of a raw node, with at most `depth` collections nested. -/
def build (c : Composition) (limit : Nat) : (depth : Nat) → Raw → Build Datum
  | depth, raw => do
    match ← follow c limit raw, depth with
    | .scalar tag text plain, _ => liftM (ofScalar tag text plain)
    | .alias _, _ => throw ⟨"an alias of an alias"⟩
    | .sequence _ _, 0 | .mapping _ _, 0 => throw ⟨"too deeply nested"⟩
    | .sequence tag items, depth + 1 =>
      return withTag tag (.sequence (← items.mapM (build c limit depth)))
    | .mapping tag entries, depth + 1 =>
      return withTag tag (.mapping (← buildEntries (build c limit depth) [] entries))

/-- Reads a text; a text without a document is null. -/
def read (text : String) : Except Fault Datum := do
  let events ← events text
  let c ← events.foldlM Composition.feed Composition.start
  match c.root with
  | none => return .null
  | some raw =>
    let (datum, _) ← (build c (100 * events.length) maxNesting raw).run 0
    return datum

end Datum

end Expansion.Yaml
