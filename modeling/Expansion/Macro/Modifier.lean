import Expansion.Document.Overlay
import Expansion.Document.Branch
import Expansion.Macro.Call
import Expansion.Macro.Error

/-!
  Modifiers: what a macro wants done to the document.

  A macro does not change the document.  It returns a modifier, a list of instructions bound to the
  path of its key, which runs after the walk.  A transform reads its source when it runs, so that
  what ran before it is in the text.  A modifier that fails keeps the changes of the instructions
  before the one that failed.
-/

namespace Expansion

/-- One change of the document. -/
inductive Instruction
  /-- Writes a value. -/
  | set (path : Path) (value : Value)
  /-- Merges a value; what is there wins. -/
  | overlay (path : Path) (value : Value)
  /-- Removes a field or an element. -/
  | delete (path : Path)
  /-- Writes the text of one value in the place of another. -/
  | transform (source target : Path) (form : Transform)
  deriving Inhabited

namespace Instruction

/-- The name of the change. -/
def name : Instruction → String
  | set .. => "set"
  | overlay .. => "overlay"
  | delete _ => "delete"
  | transform .. => "transform"

/-- Writes a value. -/
def write (path : Path) (value : Value) : Edit MacroError Unit :=
  Edit.mapError .document do let _ ← Document.set path value

/-- Carries out an instruction. -/
def apply : Instruction → Edit MacroError Unit
  | set path value => write path value
  | overlay path value => Edit.mapError .document (Document.overlay path value)
  | delete path => Edit.mapError .document do let _ ← Document.delete path
  | transform source target form => do
    let doc ← Edit.current
    let value ← Edit.lift ((doc.getValue source).mapError .document)
    let text ← Edit.lift ((form.render value).mapError (.encode form))
    write target (.string text)

end Instruction

/-- Instructions bound to the path of a macro key. -/
structure Modifier where
  path : Path
  macroName : String
  instructions : List Instruction
  deriving Inhabited

/-- The macro key of a branch, with the macro that it calls. -/
structure Macro.Invocation where
  definition : Macro.Definition
  name : String
  argument : Option String
  deriving DecidableEq, Repr

namespace Modifier

/-- A modifier bound to the key that is visited. -/
def bound (branch : Branch) (invocation : Macro.Invocation) (instructions : List Instruction) :
    Modifier :=
  ⟨branch.path, invocation.name, instructions⟩

/-- The path in text form. -/
def text (modifier : Modifier) : String := modifier.path.text

/-- Carries out instructions in order, for a modifier. -/
def applyInstructions (modifier : Modifier) : List Instruction → Edit MacroError Unit
  | [] => pure ()
  | instruction :: rest => do
    Edit.note .trace "Applying instruction"
      [("path", modifier.text), ("instruction", instruction.name)]
    Edit.mapError (.modifierExecution modifier.text modifier.macroName) instruction.apply
    applyInstructions modifier rest

/-- Carries out the instructions of a modifier in order. -/
def apply (modifier : Modifier) : Edit MacroError Unit :=
  modifier.applyInstructions modifier.instructions

/-- The modifier `a` runs before `b`, or they are at the same path: deeper paths run first, and
paths of one depth in descending order. -/
def runsBefore (a b : Modifier) : Bool :=
  if a.path.length = b.path.length then a.path.cmp b.path != .lt
  else decide (b.path.length < a.path.length)

/-- Runs modifiers in the order given, up to the first failure. -/
def applyEach : List Modifier → Edit MacroError Unit
  | [] => pure ()
  | modifier :: rest => do
    modifier.apply
    applyEach rest

end Modifier

/-- The modifiers registered during one walk, by the text of their path. -/
structure Pending where
  modifiers : Fields Modifier := []
  deriving Inhabited

namespace Pending

/-- The number of modifiers. -/
def len (pending : Pending) : Nat := pending.modifiers.length

/-- Nothing is to be done. -/
def isEmpty (pending : Pending) : Bool := pending.modifiers.isEmpty

/-- The modifier at a path, given by its text. -/
def get? (pending : Pending) (path : String) : Option Modifier :=
  Fields.find? path pending.modifiers

/-- The pending modifiers with one more; it takes the place of one at the same path. -/
def add (modifier : Modifier) (pending : Pending) : Pending :=
  ⟨Fields.insert modifier.text modifier pending.modifiers⟩

/-- Registers a modifier; the one whose place it takes comes first. -/
def insert (modifier : Modifier) (pending : Pending) : Logged (Option Modifier × Pending) := do
  Logged.note .debug "Registering modifier"
    [("path", modifier.text), ("macro_name", modifier.macroName)]
  let replaced := pending.get? modifier.text
  if replaced.isSome then
    Logged.note .warn "Modifier replaced at the same path" [("path", modifier.text)]
  return (replaced, pending.add modifier)

/-- The modifiers in the order in which they run. -/
def inOrder (pending : Pending) : List Modifier :=
  (pending.modifiers.map (·.2)).mergeSort Modifier.runsBefore

/-- Runs all modifiers, up to the first failure; their number is the answer. -/
def applyAll (pending : Pending) : Edit MacroError Nat := do
  Modifier.applyEach pending.inOrder
  return pending.len

@[simp] theorem value_insert (modifier : Modifier) (pending : Pending) :
    (pending.insert modifier).value = (pending.get? modifier.text, pending.add modifier) := by
  simp only [insert]
  split <;> rfl

end Pending

end Expansion
