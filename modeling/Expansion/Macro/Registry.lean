import Expansion.Document.Basic
import Expansion.Macro.Modifier

/-!
  The registry of macros.

  Macros are filed by phase and name; the last definition of a phase and name counts.  The types and
  verbs of all definitions are the vocabulary against which keys are read, so a key may have the
  form of a macro call without any macro being registered for it.
-/

namespace Expansion

namespace Macro

/-- What a macro sees when its key is visited. -/
structure Context where
  document : Document
  phase : Phase
  space : String
  /-- Expands a value apart from the document. -/
  resolve : Value → Logged (Except MacroError Value)

/-- Makes the modifier for one macro key. -/
abbrev Factory := Context → Branch → Invocation → Logged (Except MacroError Modifier)

/-- A macro with its definition. -/
structure Registered where
  definition : Definition
  factory : Factory

end Macro

/-- Macros by phase and name, in a namespace. -/
structure Registry where
  space : String
  macros : Phase → Fields Macro.Registered := fun _ => []

namespace Registry

open Macro

/-- The registry with one more macro. -/
def add (definition : Definition) (factory : Factory) (registry : Registry) : Registry :=
  { registry with
    macros := fun phase =>
      if phase = definition.phase then
        Fields.insert (definition.name registry.space) ⟨definition, factory⟩
          (registry.macros phase)
      else registry.macros phase }

/-- The macro filed under a phase and a name. -/
def find? (registry : Registry) (phase : Phase) (name : String) : Option Registered :=
  Fields.find? name (registry.macros phase)

/-- Registers a macro. -/
def define (definition : Definition) (factory : Factory) (registry : Registry) :
    Logged Registry := do
  let name := definition.name registry.space
  Logged.note .debug "Defining macro" [("macro_name", name), ("phase", definition.phase.name)]
  if (registry.find? definition.phase name).isSome then
    Logged.note .warn "Macro redefined, last registration wins" [("macro_name", name)]
  return registry.add definition factory

/-- The definitions, by phase and then by name. -/
def definitions (registry : Registry) : List Definition :=
  Phase.all.flatMap fun phase => (registry.macros phase).map fun entry => entry.2.definition

/-- The number of macros. -/
def len (registry : Registry) : Nat := registry.definitions.length

/-- No macro is registered. -/
def isEmpty (registry : Registry) : Bool := registry.definitions.isEmpty

/-- The words of the registered macros. -/
def vocabulary (registry : Registry) : Vocabulary :=
  Vocabulary.ofDefinitions registry.space registry.definitions

/-- The macro that a key calls in a phase. -/
def lookup (registry : Registry) (phase : Phase) (key : String) :
    Option (Invocation × Factory) := do
  let call ← registry.vocabulary.parse key
  let name := call.name registry.space
  let registered ← registry.find? phase name
  return (⟨registered.definition, name, call.argument⟩, registered.factory)

/-- The phases in which a key calls a macro. -/
def phasesFor (registry : Registry) (key : String) : List Phase :=
  Phase.all.filter fun phase => (registry.lookup phase key).isSome

/-- A definition in words, by its fields. -/
def describeDefinition (definition : Definition) : String :=
  "MacroDef \x7b return_type: " ++ definition.returnType.name ++ ", phase: "
    ++ definition.phase.title ++ ", verb: " ++ Text.Quoted.encode definition.verb ++ " \x7d"

/-- The registry in words, by its fields. -/
def describe (registry : Registry) : String :=
  "MacroRegistry \x7b namespace: " ++ Text.Quoted.encode registry.space ++ ", macros: ["
    ++ ", ".intercalate (registry.definitions.map describeDefinition) ++ "] \x7d"

@[simp] theorem value_define (definition : Definition) (factory : Factory) (registry : Registry) :
    (registry.define definition factory).value = registry.add definition factory := by
  simp only [define]
  split <;> rfl

end Registry

end Expansion
