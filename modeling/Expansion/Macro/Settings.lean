import Expansion.Json.Reader

/-!
  The settings of an expansion.

  They are written as a JSON object, or as an array of the four settings in order; what is missing
  has its default, and unknown fields are skipped.  The text is read from left to right, so that a
  setting of the wrong form is reported before a fault further on.
-/

namespace Expansion

/-- The settings of an expansion. -/
structure Settings where
  /-- The namespace of macro keys. -/
  space : String := "kubegen"
  /-- Unknown and left-over macro keys are errors. -/
  strict : Bool := false
  /-- The number of walks that a phase may take, if it is limited. -/
  maxWalks : Option Nat := none
  /-- How deep the lookups of looked-up values may nest. -/
  maxLookupDepth : Nat := 16
  deriving DecidableEq, Repr, Inhabited

/-- Why there are no settings. -/
inductive SettingsError
  /-- The file cannot be read as text. -/
  | unreadable
  /-- The text does not hold settings. -/
  | malformed (fault : Json.Fault)
  deriving DecidableEq, Repr

/-- What a directory holds in the place of the settings file. -/
inductive SettingsFile
  /-- Nothing. -/
  | absent
  /-- Something that has no content. -/
  | closed
  /-- A file. -/
  | content (octets : List UInt8)

namespace Settings

open Json

/-- The same settings with strict handling of macro keys. -/
def strictly (settings : Settings) : Settings := { settings with strict := true }

/-! ## Single settings -/

/-- Reads something from the start of the input and returns it with the octets after it. -/
abbrev Reads (α : Type) := List UInt8 → Except Fault (α × List UInt8)

/-- The fault of a value that is not of the form asked for: one of form if it is no value at
all. -/
def misfit (input : List UInt8) : Fault :=
  match skipBlank input with
  | [] => .truncated
  | b :: rest =>
    if b = 0x5b || b = 0x7b then .mismatched
    else
      match readScalar .keep b rest with
      | .ok _ => .mismatched
      | .error fault => fault

/-- Reads a text. -/
def readName (input : List UInt8) : Except Fault (String × List UInt8) :=
  match skipBlank input with
  | 0x22 :: rest => readText .empty rest
  | _ => .error (misfit input)

/-- Reads a truth value. -/
def readFlag (input : List UInt8) : Except Fault (Bool × List UInt8) :=
  match skipBlank input with
  | 0x74 :: rest => (readWord [0x72, 0x75, 0x65] rest).map fun rest => (true, rest)
  | 0x66 :: rest => (readWord [0x61, 0x6c, 0x73, 0x65] rest).map fun rest => (false, rest)
  | _ => .error (misfit input)

/-- Reads a natural number. -/
def readCount (input : List UInt8) : Except Fault (Nat × List UInt8) :=
  match skipBlank input with
  | [] => .error .truncated
  | b :: rest =>
    if b = 0x2d || isDigit b then
      match readNumber (b :: rest) with
      | .error fault => .error fault
      | .ok (.whole n, rest) => if 0 ≤ n then .ok (n.toNat, rest) else .error .mismatched
      | .ok (.real _, _) => .error .mismatched
    else .error (misfit input)

/-- Reads a natural number or null. -/
def readLimit (input : List UInt8) : Except Fault (Option Nat × List UInt8) :=
  match skipBlank input with
  | 0x6e :: rest => (readWord [0x75, 0x6c, 0x6c] rest).map fun rest => (none, rest)
  | _ => (readCount input).map fun (n, rest) => (some n, rest)

/-! ## Settings as an object -/

/-- The settings that an object has given so far. -/
structure Given where
  space : Option String := none
  strict : Option Bool := none
  maxWalks : Option (Option Nat) := none
  maxLookupDepth : Option Nat := none

/-- What was given, and defaults for the rest. -/
def Given.complete (given : Given) : Settings :=
  let default : Settings := {}
  { space := given.space.getD default.space
    strict := given.strict.getD default.strict
    maxWalks := given.maxWalks.getD default.maxWalks
    maxLookupDepth := given.maxLookupDepth.getD default.maxLookupDepth }

/-- Reads the colon and the value of a setting that may be given once. -/
def readOnce {α : Type} (before : Option α) (read : Reads α)
    (input : List UInt8) : Except Fault (α × List UInt8) :=
  if before.isSome then .error .mismatched
  else do read (← readColon input)

/-- Reads the colon and the value of the field called `name`. -/
def readField (given : Given) (name : String) (input : List UInt8) :
    Except Fault (Given × List UInt8) :=
  if name = "namespace" then
    (readOnce given.space readName input).map fun (v, rest) =>
      ({ given with space := some v }, rest)
  else if name = "strictMacros" then
    (readOnce given.strict readFlag input).map fun (v, rest) =>
      ({ given with strict := some v }, rest)
  else if name = "maxWalksPerPhase" then
    (readOnce given.maxWalks readLimit input).map fun (v, rest) =>
      ({ given with maxWalks := some v }, rest)
  else if name = "maxLookupDepth" then
    (readOnce given.maxLookupDepth readCount input).map fun (v, rest) =>
      ({ given with maxLookupDepth := some v }, rest)
  else do return (given, ← skipValue (← readColon input))

/-- The octets from the next name on, after its quote, or `none` after the end of the object. -/
def nextField (first : Bool) (input : List UInt8) : Except Fault (Bool × List UInt8) :=
  match skipBlank input with
  | [] => .error .truncated
  | b :: rest =>
    if b = 0x7d then .ok (false, rest)
    else if first then if b = 0x22 then .ok (true, rest) else .error .malformed
    else if b = 0x2c then
      match skipBlank rest with
      | [] => .error .truncated
      | b :: rest => if b = 0x22 then .ok (true, rest) else .error .malformed
    else .error .malformed

/-- Reads the fields of an object to its end.  Every field uses up input; `turns` bounds their
number. -/
def readFields : (turns : Nat) → (first : Bool) → Given → List UInt8 →
    Except Fault (Given × List UInt8)
  | 0, _, _, _ => .error .truncated
  | turns + 1, first, given, input => do
    match ← nextField first input with
    | (false, rest) => return (given, rest)
    | (true, rest) =>
      let (name, rest) ← readText .empty rest
      let (given, rest) ← readField given name rest
      readFields turns false given rest

/-! ## Settings as an array -/

/-- Reads the next element of an array, or takes the default at its end, which stays in the
input. -/
def readItem {α : Type} (first : Bool) (default : α) (read : Reads α)
    (input : List UInt8) : Except Fault (α × List UInt8) :=
  match skipBlank input with
  | [] => .error .truncated
  | b :: rest =>
    if b = 0x5d then .ok (default, b :: rest)
    else if first then read (b :: rest)
    else if b = 0x2c then
      match skipBlank rest with
      | [] => .error .truncated
      | b :: rest => if b = 0x5d then .error .malformed else read (b :: rest)
    else .error .malformed

/-- Reads the elements of an array to its end. -/
def readItems (input : List UInt8) : Except Fault (Settings × List UInt8) := do
  let default : Settings := {}
  let (space, input) ← readItem true default.space readName input
  let (strict, input) ← readItem false default.strict readFlag input
  let (maxWalks, input) ← readItem false default.maxWalks readLimit input
  let (maxLookupDepth, input) ← readItem false default.maxLookupDepth readCount input
  match skipBlank input with
  | [] => throw .truncated
  | b :: rest =>
    if b = 0x5d then return (⟨space, strict, maxWalks, maxLookupDepth⟩, rest)
    else throw .malformed

/-! ## Settings as text -/

/-- Reads settings. -/
def read (input : List UInt8) : Except Fault Settings := do
  let (settings, rest) ←
    match skipBlank input with
    | 0x7b :: rest =>
      (readFields (rest.length + 1) true {} rest).map fun (given, rest) => (given.complete, rest)
    | 0x5b :: rest => readItems rest
    | _ => .error (misfit input)
  atEnd rest
  return settings

/-- The settings that a directory holds; the defaults without a file. -/
def load : SettingsFile → Except SettingsError Settings
  | .absent => .ok {}
  | .closed => .error .unreadable
  | .content octets =>
    if (String.fromUTF8? ⟨octets.toArray⟩).isNone then .error .unreadable
    else (read octets).mapError .malformed

/-- Settings as an object; no limit of walks is left out. -/
def toValue (settings : Settings) : Value :=
  let limit : Fields Value :=
    match settings.maxWalks with
    | some n => [("maxWalksPerPhase", .whole n)]
    | none => []
  .object (("maxLookupDepth", .whole settings.maxLookupDepth) :: limit ++
    [("namespace", .string settings.space), ("strictMacros", .boolean settings.strict)])

end Settings

end Expansion
