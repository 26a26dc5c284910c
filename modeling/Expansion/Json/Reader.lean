import Expansion.Json.Literal
import Expansion.Value

/-!
  Reading JSON.

  A reader keeps the containers it is inside of on a stack and looks at one octet to decide what
  comes next.  An object keeps the last value given for a name.  Values that are read may nest at
  most 127 containers deep.  A value that is only skipped is held to the grammar alone: its texts
  are not decoded, its numbers may be of any magnitude, and it may nest to any depth.
-/

namespace Expansion.Json

/-- An open container: what it holds so far. -/
inductive Frame
  /-- The elements of an array, the last one first. -/
  | items (before : List Value)
  /-- The fields of an object, and the name of the field whose value is being read. -/
  | fields (before : Fields Value) (name : String)

/-- What the reader is about to see. -/
inductive Stage
  /-- A value. -/
  | value
  /-- A value, or the end of an array. -/
  | firstItem
  /-- The name of a field, or the end of an object. -/
  | firstField
  /-- The name of a field. -/
  | field
  /-- What follows this complete value. -/
  | after (v : Value)

/-- Whether values are kept or only checked for their form. -/
inductive Mode
  | keep | skip
  deriving DecidableEq, Repr

/-- The greatest number of containers that a kept value may nest. -/
def maxNesting : Nat := 127

/-- Reads a value without parts, given its first octet. -/
def readScalar (mode : Mode) (first : UInt8) (rest : List UInt8) :
    Except Fault (Value × List UInt8) :=
  if first = 0x6e then (readWord [0x75, 0x6c, 0x6c] rest).map fun rest => (.null, rest)
  else if first = 0x74 then (readWord [0x72, 0x75, 0x65] rest).map fun rest => (.boolean true, rest)
  else if first = 0x66 then
    (readWord [0x61, 0x6c, 0x73, 0x65] rest).map fun rest => (.boolean false, rest)
  else if first = 0x22 then
    match mode with
    | .keep => (readText .empty rest).map fun (text, rest) => (.string text, rest)
    | .skip => (skipText rest).map fun rest => (.null, rest)
  else if first = 0x2d || isDigit first then
    match mode with
    | .keep => (readNumber (first :: rest)).map fun (number, rest) => (.number number, rest)
    | .skip => (skipNumber (first :: rest)).map fun rest => (.null, rest)
  else .error .malformed

/-- The octets after the colon between a name and its value. -/
def readColon (input : List UInt8) : Except Fault (List UInt8) :=
  match skipBlank input with
  | [] => .error .truncated
  | b :: rest => if b = 0x3a then .ok rest else .error .malformed

/-- Reads the name of a field up to the colon after it, from after its opening quote. -/
def readName (mode : Mode) (input : List UInt8) : Except Fault (String × List UInt8) := do
  let (name, rest) ←
    match mode with
    | .keep => readText .empty input
    | .skip => (skipText input).map fun rest => ("", rest)
  return (name, ← readColon rest)

/-- Reads a scalar or opens a container. -/
def openValue (mode : Mode) (frames : List Frame) (b : UInt8) (rest : List UInt8) :
    Except Fault (List Frame × Stage × List UInt8) :=
  if b = 0x5b || b = 0x7b then
    if mode = .keep ∧ maxNesting ≤ frames.length then .error .malformed
    else if b = 0x5b then .ok (.items [] :: frames, .firstItem, rest)
    else .ok (.fields [] "" :: frames, .firstField, rest)
  else (readScalar mode b rest).map fun (v, rest) => (frames, .after v, rest)

/-- Reads the name of a field, given the first octet. -/
def openField (mode : Mode) (before : Fields Value) (outer : List Frame) (b : UInt8)
    (rest : List UInt8) : Except Fault (List Frame × Stage × List UInt8) :=
  if b = 0x22 then
    (readName mode rest).map fun (name, rest) => (.fields before name :: outer, .value, rest)
  else .error .malformed

/-- What one octet that is not blank, and what belongs to it, leads to. -/
def step (mode : Mode) (frames : List Frame) (stage : Stage) (b : UInt8) (rest : List UInt8) :
    Except Fault (List Frame × Stage × List UInt8) :=
  match stage, frames with
  | .after v, .items before :: outer =>
    if b = 0x2c then .ok (.items (v :: before) :: outer, .value, rest)
    else if b = 0x5d then .ok (outer, .after (.array (v :: before).reverse), rest)
    else .error .malformed
  | .after v, .fields before name :: outer =>
    let fields := Fields.insert name v before
    if b = 0x2c then .ok (.fields fields "" :: outer, .field, rest)
    else if b = 0x7d then .ok (outer, .after (.object fields), rest)
    else .error .malformed
  | .after _, [] => .error .malformed
  | .firstItem, _ :: outer =>
    if b = 0x5d then .ok (outer, .after (.array []), rest) else openValue mode frames b rest
  | .firstField, .fields before _ :: outer =>
    if b = 0x7d then .ok (outer, .after (.object []), rest)
    else openField mode before outer b rest
  | .field, .fields before _ :: outer => openField mode before outer b rest
  | _, _ => openValue mode frames b rest

/-- Runs the reader from a stage inside the given containers.  Every step uses up input, so that an
input has no more steps than octets; `steps` bounds their number. -/
def run (mode : Mode) :
    (steps : Nat) → List Frame → Stage → List UInt8 → Except Fault (Value × List UInt8)
  | _, [], .after v, input => .ok (v, input)
  | 0, _, _, _ => .error .truncated
  | steps + 1, frames, stage, input =>
    match skipBlank input with
    | [] => .error .truncated
    | b :: rest => do
      let (frames, stage, rest) ← step mode frames stage b rest
      run mode steps frames stage rest

/-- Reads one value and returns the octets after it. -/
def readValue (input : List UInt8) : Except Fault (Value × List UInt8) :=
  run .keep input.length [] .value input

/-- The octets after one value. -/
def skipValue (input : List UInt8) : Except Fault (List UInt8) :=
  (run .skip input.length [] .value input).map (·.2)

/-- Nothing but blanks follows. -/
def atEnd (rest : List UInt8) : Except Fault Unit :=
  if (skipBlank rest).isEmpty then .ok () else .error .malformed

/-- Reads an input that is one value. -/
def read (input : List UInt8) : Except Fault Value := do
  let (v, rest) ← readValue input
  atEnd rest
  return v

/-- The octets of a text. -/
def octets (text : String) : List UInt8 := text.toUTF8.toList

end Expansion.Json
