import Expansion.Macro.Registry

/-!
  Macros given by templates.

  A template lists the instructions of a modifier.  Their paths are put together from keys, the path
  of the macro key and the path of its wrapper; their values are given in the template, read from
  the document at the macro key, or tell of the invocation.  A value may be expanded before use.
-/

namespace Expansion.Macro

/-- A piece of a path in a template. -/
inductive Piece
  | key (key : Key)
  /-- The path of the macro key. -/
  | branch
  /-- The path of the object that holds it. -/
  | wrapper
  deriving Repr

/-- A path in a template. -/
abbrev PathTemplate := List Piece

/-- The path that a template stands for at a branch. -/
def PathTemplate.at (branch : Branch) (template : PathTemplate) : Path :=
  template.flatMap fun
    | .key key => [key]
    | .branch => branch.path
    | .wrapper => branch.path.dropLast

/-- Where a value in a template comes from. -/
inductive Origin
  | literal (value : Value)
  /-- The document at the macro key. -/
  | input
  /-- A description of the invocation. -/
  | call

/-- A value in a template. -/
structure ValueTemplate where
  origin : Origin
  /-- The value is expanded before use. -/
  resolved : Bool

/-- An instruction in a template. -/
inductive InstructionTemplate
  | set (path : PathTemplate) (value : ValueTemplate)
  | overlay (path : PathTemplate) (value : ValueTemplate)
  | delete (path : PathTemplate)
  | transform (source target : PathTemplate) (form : Transform)

/-- A macro given by instructions. -/
structure Template where
  definition : Definition
  /-- The kinds of value that it takes; none means all. -/
  accepted : List Kind
  instructions : List InstructionTemplate

/-- An invocation as a value. -/
def describeInvocation (context : Context) (invocation : Invocation) : Value :=
  .object
    [("argument", (invocation.argument.map Value.string).getD .null),
     ("name", .string invocation.name),
     ("namespace", .string context.space),
     ("phase", .string context.phase.name),
     ("type", .string invocation.definition.returnType.name),
     ("verb", .string invocation.definition.verb)]

/-- The value that a template stands for before it is expanded. -/
def Origin.value (context : Context) (branch : Branch) (invocation : Invocation) :
    Origin → Except MacroError Value
  | literal value => .ok value
  | input => (context.document.getValue branch.path).mapError .document
  | call => .ok (describeInvocation context invocation)

/-- The value that a template stands for. -/
def ValueTemplate.value (context : Context) (branch : Branch) (invocation : Invocation)
    (template : ValueTemplate) : Logged (Except MacroError Value) :=
  match template.origin.value context branch invocation with
  | .error e => return .error e
  | .ok value => if template.resolved then context.resolve value else return .ok value

/-- The instruction that a template stands for. -/
def InstructionTemplate.instruction (context : Context) (branch : Branch)
    (invocation : Invocation) : InstructionTemplate → Logged (Except MacroError Instruction)
  | set path value => do
    return (← value.value context branch invocation).map fun value =>
      .set (path.at branch) value
  | overlay path value => do
    return (← value.value context branch invocation).map fun value =>
      .overlay (path.at branch) value
  | delete path => return .ok (.delete (path.at branch))
  | transform source target form =>
    return .ok (.transform (source.at branch) (target.at branch) form)

/-- The instructions that templates stand for, up to the first error. -/
def instantiate (context : Context) (branch : Branch) (invocation : Invocation) :
    List InstructionTemplate → Logged (Except MacroError (List Instruction))
  | [] => return .ok []
  | template :: rest => do
    match ← template.instruction context branch invocation with
    | .error e => return .error e
    | .ok instruction =>
      return (← instantiate context branch invocation rest).map (instruction :: ·)

/-- The macro that a template stands for. -/
def Template.factory (template : Template) : Factory := fun context branch invocation => do
  if !template.accepted.isEmpty && !template.accepted.contains branch.kind then
    return .error
      (.macroTypeMismatch branch.text invocation.name template.accepted branch.kind)
  return (← instantiate context branch invocation template.instructions).map
    fun instructions => .bound branch invocation instructions

/-- The macro that a template stands for, with its definition. -/
def Template.registered (template : Template) : Registered :=
  ⟨template.definition, template.factory⟩

end Expansion.Macro
