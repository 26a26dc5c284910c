import Expansion.Yaml.Token

/-!
  The structure of a YAML document as a list of events.

  Events say where nodes start and end.  They are found by looking at one token after another, with
  a stack of what is expected.  A token that does not belong to the innermost expectation ends it:
  missing keys and values become empty scalars.  A text holds one document or none.
-/

namespace Expansion.Yaml

/-- What is said of a node in front of it. -/
structure Properties where
  anchor : Option String
  tag : Option Tag
  deriving DecidableEq, Repr

/-- One step through a document. -/
inductive Event
  | alias (name : String)
  | scalar (properties : Properties) (text : String) (plain : Bool)
  | sequenceStart (properties : Properties)
  | sequenceEnd
  | mappingStart (properties : Properties)
  | mappingEnd
  deriving DecidableEq, Repr

/-- A missing node. -/
def Event.empty (properties : Properties) : Event := .scalar properties "" true

/-- No properties. -/
def Properties.none : Properties := ⟨.none, .none⟩

/-- What is expected next. -/
inductive Expected
  /-- A directive, a marker or the first node. -/
  | document
  /-- The marker after directives. -/
  | documentMarker
  /-- The node after a marker. -/
  | documentNode
  /-- The end of the document. -/
  | documentEnd
  /-- The end of the text. -/
  | streamEnd
  /-- A node; whether block collections may start, and whether elements may start unindented. -/
  | node (block unindented : Bool)
  /-- The rest of a node after some of its properties. -/
  | content (block unindented : Bool) (properties : Properties)
  /-- An element or the end of a block sequence, and the node of an element. -/
  | blockItem
  | blockItemNode
  /-- The same for a sequence at the indentation of its mapping. -/
  | unindentedItem
  | unindentedItemNode
  /-- A key or the end of a block mapping; the node of the key; the value; its node. -/
  | blockKey
  | blockKeyNode
  | blockValue
  | blockValueNode
  /-- The first element or the end of a bracketed sequence; a comma or the end; an element. -/
  | flowItemFirst
  | flowItem
  | flowItemNode
  /-- A pair that stands as an element: its key, its value, the node of the value, its end. -/
  | pairKey
  | pairValue
  | pairValueNode
  | pairEnd
  /-- The first key or the end of a bracketed mapping; a comma or the end; a key; its node; the
  value; its node; the missing value of a key without question mark and colon. -/
  | flowKeyFirst
  | flowKey
  | flowKeyStart
  | flowKeyNode
  | flowValue
  | flowValueNode
  | flowValueMissing
  deriving DecidableEq, Repr

/-- What a token leads to: whether it is used up, what takes the place of the expectation, and the
event. -/
structure Reaction where
  used : Bool
  expect : List Expected
  events : List Event

/-- The tag handles of a document. -/
abbrev Handles := List (String × Tag)

/-- The handles that every document has. -/
def standardHandles : Handles := [("!", .mark), ("!!", .standardStem)]

/-- The tag that a handle and a suffix write. -/
def expandTag (handles : Handles) (handle : String) (suffix : Tag) : Except Fault Tag :=
  if handle = "" then .ok suffix
  else
    match handles.find? fun entry => entry.1 = handle with
    | some (_, stem) => .ok (stem ++ suffix)
    | none => .error ⟨"an undefined tag handle"⟩

namespace Reaction

/-- Uses the token. -/
def use (expect : List Expected) (events : List Event) : Except Fault Reaction :=
  .ok ⟨true, expect, events⟩

/-- Leaves the token to what is expected instead. -/
def leave (expect : List Expected) (events : List Event) : Except Fault Reaction :=
  .ok ⟨false, expect, events⟩

/-- An empty scalar without properties. -/
def missing (expect : List Expected) : Except Fault Reaction :=
  leave expect [Event.empty .none]

/-- A token with which no node starts. -/
def refuse : Except Fault Reaction := .error ⟨"an unexpected token"⟩

/-- The node itself, after its properties. -/
def ofContent (block unindented : Bool) (properties : Properties) (token : Token) :
    Except Fault Reaction :=
  match token with
  | .blockEntry =>
    if unindented then leave [.unindentedItem] [.sequenceStart properties]
    else if properties = .none then refuse
    else leave [] [Event.empty properties]
  | .scalar text plain => use [] [.scalar properties text plain]
  | .flowSequenceStart => use [.flowItemFirst] [.sequenceStart properties]
  | .flowMappingStart => use [.flowKeyFirst] [.mappingStart properties]
  | .blockSequenceStart =>
    if block then use [.blockItem] [.sequenceStart properties]
    else if properties = .none then refuse
    else leave [] [Event.empty properties]
  | .blockMappingStart =>
    if block then use [.blockKey] [.mappingStart properties]
    else if properties = .none then refuse
    else leave [] [Event.empty properties]
  | _ => if properties = .none then refuse else leave [] [Event.empty properties]

/-- What a token leads to where `expected` stands. -/
def of (handles : Handles) (expected : Expected) (token : Token) : Except Fault Reaction :=
  match expected with
  | .document =>
    match token with
    | .version _ _ | .tagHandle _ _ => use [.documentMarker] []
    | .documentStart => use [.documentNode, .documentEnd] []
    | .streamEnd => use [] []
    | _ => leave [.node true false, .documentEnd] []
  | .documentMarker =>
    match token with
    | .version _ _ | .tagHandle _ _ => use [.documentMarker] []
    | .documentStart => use [.documentNode, .documentEnd] []
    | _ => refuse
  | .documentNode =>
    match token with
    | .version _ _ | .tagHandle _ _ | .documentStart | .documentEnd | .streamEnd => missing []
    | _ => leave [.node true false] []
  | .documentEnd =>
    if token = .documentEnd then use [.streamEnd] [] else leave [.streamEnd] []
  | .streamEnd =>
    match token with
    | .documentEnd => use [.streamEnd] []
    | .streamEnd => use [] []
    | _ => .error ⟨"more than one document"⟩
  | .node block unindented =>
    match token with
    | .alias name => use [] [.alias name]
    | .anchor name => use [.content block unindented ⟨some name, none⟩] []
    | .tag handle suffix => do
      let tag ← expandTag handles handle suffix
      use [.content block unindented ⟨none, some tag⟩] []
    | token => ofContent block unindented .none token
  | .content block unindented properties =>
    match token, properties with
    | .anchor name, ⟨none, tag⟩ => use [.content block unindented ⟨some name, tag⟩] []
    | .tag handle suffix, ⟨anchor, none⟩ => do
      let tag ← expandTag handles handle suffix
      use [.content block unindented ⟨anchor, some tag⟩] []
    | token, properties => ofContent block unindented properties token
  | .blockItem =>
    match token with
    | .blockEntry => use [.blockItemNode] []
    | .blockEnd => use [] [.sequenceEnd]
    | _ => refuse
  | .blockItemNode =>
    match token with
    | .blockEntry | .blockEnd => missing [.blockItem]
    | _ => leave [.node true false, .blockItem] []
  | .unindentedItem =>
    match token with
    | .blockEntry => use [.unindentedItemNode] []
    | _ => leave [] [.sequenceEnd]
  | .unindentedItemNode =>
    match token with
    | .blockEntry | .key | .value | .blockEnd => missing [.unindentedItem]
    | _ => leave [.node true false, .unindentedItem] []
  | .blockKey =>
    match token with
    | .key => use [.blockKeyNode] []
    | .blockEnd => use [] [.mappingEnd]
    | _ => refuse
  | .blockKeyNode =>
    match token with
    | .key | .value | .blockEnd => missing [.blockValue]
    | _ => leave [.node true true, .blockValue] []
  | .blockValue =>
    match token with
    | .value => use [.blockValueNode] []
    | _ => missing [.blockKey]
  | .blockValueNode =>
    match token with
    | .key | .value | .blockEnd => missing [.blockKey]
    | _ => leave [.node true true, .blockKey] []
  | .flowItemFirst =>
    match token with
    | .flowSequenceEnd => use [] [.sequenceEnd]
    | _ => leave [.flowItemNode] []
  | .flowItem =>
    match token with
    | .flowEntry => use [.flowItemNode] []
    | .flowSequenceEnd => use [] [.sequenceEnd]
    | _ => refuse
  | .flowItemNode =>
    match token with
    | .key => use [.pairKey] [.mappingStart .none]
    | .flowSequenceEnd => use [] [.sequenceEnd]
    | _ => leave [.node false false, .flowItem] []
  | .pairKey =>
    match token with
    -- A missing key takes the token with it.
    | .value | .flowEntry | .flowSequenceEnd => use [.pairValue] [Event.empty .none]
    | _ => leave [.node false false, .pairValue] []
  | .pairValue =>
    match token with
    | .value => use [.pairValueNode] []
    | _ => missing [.pairEnd]
  | .pairValueNode =>
    match token with
    | .flowEntry | .flowSequenceEnd => missing [.pairEnd]
    | _ => leave [.node false false, .pairEnd] []
  | .pairEnd => leave [.flowItem] [.mappingEnd]
  | .flowKeyFirst =>
    match token with
    | .flowMappingEnd => use [] [.mappingEnd]
    | _ => leave [.flowKeyStart] []
  | .flowKey =>
    match token with
    | .flowEntry => use [.flowKeyStart] []
    | .flowMappingEnd => use [] [.mappingEnd]
    | _ => refuse
  | .flowKeyStart =>
    match token with
    | .key => use [.flowKeyNode] []
    | .flowMappingEnd => use [] [.mappingEnd]
    | _ => leave [.node false false, .flowValueMissing] []
  | .flowKeyNode =>
    match token with
    | .value | .flowEntry | .flowMappingEnd => missing [.flowValue]
    | _ => leave [.node false false, .flowValue] []
  | .flowValue =>
    match token with
    | .value => use [.flowValueNode] []
    | _ => missing [.flowKey]
  | .flowValueNode =>
    match token with
    | .flowEntry | .flowMappingEnd => missing [.flowKey]
    | _ => leave [.node false false, .flowKey] []
  | .flowValueMissing => missing [.flowKey]

end Reaction

/-- The events so far and what is expected, innermost first. -/
structure Outline where
  expected : List Expected
  handles : Handles
  version : Option (Nat × Nat)
  events : Array Event

namespace Outline

/-- Before the first token. -/
def start : Outline := ⟨[.document], standardHandles, none, #[]⟩

/-- Takes note of a directive: at most one version, which must be 1.1 or 1.2, and at most one
meaning of a handle. -/
def direct (outline : Outline) (token : Token) : Except Fault Outline :=
  match token with
  | .version major minor =>
    if outline.version.isSome then .error ⟨"two versions"⟩
    else if major ≠ 1 ∨ (minor ≠ 1 ∧ minor ≠ 2) then .error ⟨"an unknown version"⟩
    else .ok { outline with version := some (major, minor) }
  | .tagHandle handle stem =>
    -- The standard handles may be redefined once.
    let own := outline.handles.dropLast.dropLast
    if own.any fun entry => entry.1 = handle then .error ⟨"two meanings of a tag handle"⟩
    else .ok { outline with handles := (handle, stem) :: outline.handles }
  | _ => .ok outline

/-- Hands a token to the expectations until one of them uses it.  An expectation hands on to a later
one or to a part of its node, so a few turns for each that is open are enough. -/
def feedWithin : (turns : Nat) → Token → Outline → Except Fault Outline
  | 0, _, _ => .error ⟨"no progress"⟩
  | turns + 1, token, outline =>
    match outline.expected with
    | [] => .ok outline
    | expected :: outer => do
      let reaction ← Reaction.of outline.handles expected token
      let outline := { outline with
        expected := reaction.expect ++ outer
        events := outline.events ++ reaction.events }
      if reaction.used then outline.direct token else feedWithin turns token outline

/-- Takes in one token. -/
def feed (outline : Outline) (token : Token) : Except Fault Outline :=
  feedWithin (4 * outline.expected.length + 8) token outline

end Outline

/-- The events of a text; none for a text without a document. -/
def events (text : String) : Except Fault (List Event) := do
  let outline ← (← tokens text).foldlM Outline.feed Outline.start
  return outline.events.toList

end Expansion.Yaml
