import Expansion.Document.Error
import Expansion.Phase
import Expansion.Transform

/-!
  What can go wrong with an expansion.

  Each constructor is a cause; `message` words it.  An error met while a modifier runs is wrapped
  with the place and name of its macro; `rootCause` unwraps it.
-/

namespace Expansion

/-- Why a document does not say what it describes. -/
inductive KindFault
  /-- The root is no object. -/
  | notObject (root : Kind)
  /-- No field is called `kind`. -/
  | missing
  /-- The field holds nothing. -/
  | empty (field : Key)
  deriving DecidableEq, Repr

/-- The fault in words. -/
def KindFault.reason : KindFault → String
  | notObject root => "document root is " ++ root.name ++ ", expected Object"
  | missing => "document has no kind field"
  | empty field => "field " ++ field.text ++ " must be a non-empty string or object"

/-- Why an expansion stops. -/
inductive MacroError
  /-- The document cannot be read or changed as a macro demands. -/
  | document (error : DocumentError)
  /-- The document does not say what it describes. -/
  | unknownKind (fault : KindFault)
  /-- A macro is applied to a value of a kind it does not take. -/
  | macroTypeMismatch (path macroName : String) (expected : List Kind) (actual : Kind)
  /-- The modifier of a macro fails. -/
  | modifierExecution (path macroName : String) (source : MacroError)
  /-- No attribute has the name that is looked up. -/
  | attributeNotFound (name : String)
  /-- The attribute that is looked up has another type. -/
  | attributeTypeMismatch (name : String) (expected actual : Kind)
  /-- A value of this kind cannot be joined. -/
  | encode (form : Transform) (found : Kind)
  /-- A key has the form of a macro, but none is registered for it. -/
  | unknownMacro (path key : String)
  /-- Macro keys are left in the result. -/
  | unresolvedMacros (paths : List String)
  /-- A phase does not come to rest. -/
  | walkLimitExceeded (phase : Phase) (walks : Nat)
  /-- Looked-up values look up further values too deep. -/
  | lookupDepthExceeded (limit : Nat)
  deriving DecidableEq, Repr

namespace MacroError

/-- The error in words. -/
def message : MacroError → String
  | document error => error.message
  | unknownKind fault => "Unknown kind: " ++ fault.reason
  | macroTypeMismatch path macroName expected actual =>
    "Macro type mismatch at " ++ path ++ ": " ++ macroName ++ " expects "
      ++ " or ".intercalate (expected.map Kind.name) ++ ", found " ++ actual.name
  | modifierExecution path macroName source =>
    macroName ++ " at " ++ path ++ " failed: " ++ source.message
  | attributeNotFound name => s!"Attribute '{name}' not found"
  | attributeTypeMismatch name expected actual =>
    "Attribute '" ++ name ++ "' has type " ++ actual.name ++ ", expected " ++ expected.name
  | encode form found =>
    "Failed to encode value as " ++ form.name ++ ": expected an array, found " ++ found.name
  | unknownMacro path key => s!"Unknown macro '{key}' at {path}"
  | unresolvedMacros paths => "Unresolved macros remain at: " ++ ", ".intercalate paths
  | walkLimitExceeded phase walks =>
    "Phase '" ++ phase.name ++ "' did not converge after " ++ toString walks ++ " walks"
  | lookupDepthExceeded limit => s!"Lookups nested deeper than {limit} levels"

/-- The error without the macros that it came through. -/
def rootCause : MacroError → MacroError
  | modifierExecution _ _ source => source.rootCause
  | error => error

end MacroError

end Expansion
