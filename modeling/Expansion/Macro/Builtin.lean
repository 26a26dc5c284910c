import Expansion.Macro.Attributes
import Expansion.Macro.Registry

/-!
  The built-in macros.

  Every one of them rewrites the wrapper, the object that holds its key.

  * `Null.Delete` removes the wrapper.
  * `Boolean.Lookup`, `String.Lookup` and `Number.Lookup` put the value of an attribute in its
    place.
  * `Array.Lookup` and `Object.Lookup` expand the value of the attribute first.  The result takes
    the place of a wrapper that holds nothing else, and is merged into any other wrapper.
  * `String.Join`, `String.AsJSON` and `String.AsYAML` put the text of their value in the place of
    the wrapper.
-/

namespace Expansion.Macro

/-- The path of the object that holds a macro key. -/
def wrapper (branch : Branch) : Path := branch.path.dropLast

/-- A macro takes values of some kinds only. -/
def expectInput (branch : Branch) (invocation : Invocation) (accepted : List Kind) :
    Except MacroError Unit :=
  if accepted.contains branch.kind then .ok ()
  else .error (.macroTypeMismatch branch.text invocation.name accepted branch.kind)

/-- The instructions that put a looked-up composite value into a document: in the place of the
wrapper, or without the macro key and merged into the other fields. -/
def placeComposite (doc : Document) (branch : Branch) (value : Value) :
    Except DocumentError (List Instruction) := do
  let parts ← doc.children (← doc.get (wrapper branch))
  if parts.length = 1 then return [.set (wrapper branch) value]
  else return [.delete branch.path, .overlay (wrapper branch) value]

/-- The attribute that a lookup names, and its value. -/
def lookupAttribute (attributes : Attributes) (context : Context) (branch : Branch)
    (invocation : Invocation) : Except MacroError (String × Value) := do
  expectInput branch invocation [.string]
  let name ← (context.document.getString branch.path).mapError .document
  return (name, ← attributes.lookup name invocation.definition.returnType)

/-- Substitutes an attribute. -/
def lookup (attributes : Attributes) : Factory := fun context branch invocation => do
  let returnType := invocation.definition.returnType
  match lookupAttribute attributes context branch invocation with
  | .error e => return .error e
  | .ok (name, value) =>
    Logged.note .trace "Resolving lookup"
      [("attribute", name), ("return_type", returnType.name), ("path", branch.text)]
    if !returnType.isContainer then
      return .ok (.bound branch invocation [.set (wrapper branch) value])
    match ← context.resolve value with
    | .error e => return .error e
    | .ok value =>
      match placeComposite context.document branch value with
      | .error e => return .error (.document e)
      | .ok instructions => return .ok (.bound branch invocation instructions)

/-- Writes the text of the macro's value, if it is of a kind accepted. -/
def encode (accepted : List Kind) (form : Transform) : Factory :=
  fun _ branch invocation => return do
    expectInput branch invocation accepted
    return .bound branch invocation [.transform branch.path (wrapper branch) form]

/-- Removes the wrapper. -/
def delete : Factory := fun _ branch invocation => return do
  expectInput branch invocation [.string, .object]
  return .bound branch invocation [.delete (wrapper branch)]

/-- The built-in macros, in the order of registration. -/
def builtins (attributes : Attributes) : List Registered :=
  [⟨⟨.null, .directives, "Delete"⟩, delete⟩,
   ⟨⟨.boolean, .scalars, "Lookup"⟩, lookup attributes⟩,
   ⟨⟨.string, .scalars, "Lookup"⟩, lookup attributes⟩,
   ⟨⟨.number, .scalars, "Lookup"⟩, lookup attributes⟩,
   ⟨⟨.array, .composites, "Lookup"⟩, lookup attributes⟩,
   ⟨⟨.object, .composites, "Lookup"⟩, lookup attributes⟩,
   ⟨⟨.string, .composites, "Join"⟩, encode [.array] .join⟩,
   ⟨⟨.string, .encoding, "AsJSON"⟩, encode [.object, .array] .json⟩,
   ⟨⟨.string, .encoding, "AsYAML"⟩, encode [.object, .array] .yaml⟩]

end Expansion.Macro

namespace Expansion.Registry

/-- Registers macros one after the other. -/
def defineAll : List Macro.Registered → Registry → Logged Registry
  | [], registry => pure registry
  | m :: rest, registry => do defineAll rest (← registry.define m.definition m.factory)

/-- The registry of the built-in macros in a namespace. -/
def withBuiltins (space : String) (attributes : Attributes) : Logged Registry :=
  defineAll (Macro.builtins attributes) { space }

end Expansion.Registry
