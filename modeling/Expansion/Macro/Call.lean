import Expansion.Phase
import Expansion.Kind

/-!
  Macro keys.

  A macro is named by its namespace, its return type and its verb, with points between them.  A key
  that calls it is this name, with or without an argument in parentheses; the argument holds no
  parenthesis itself.  Namespaces and verbs may hold points, types do not.

  A key is read against a vocabulary: its type and its verb must occur there, though not together.
-/

namespace Expansion.Macro

/-- A macro: what it returns, when it runs, and what it does. -/
structure Definition where
  returnType : Kind
  phase : Phase
  verb : String
  deriving DecidableEq, Repr, Inhabited

/-- The name of a macro in a namespace. -/
def canonicalName (space : String) (returnType : Kind) (verb : String) : String :=
  space ++ "." ++ returnType.name ++ "." ++ verb

/-- The name of a defined macro. -/
def Definition.name (definition : Definition) (space : String) : String :=
  canonicalName space definition.returnType definition.verb

/-- A key that calls a macro, taken apart. -/
structure Call where
  returnType : Kind
  verb : String
  argument : Option String
  deriving DecidableEq, Repr

namespace Call

/-- The name of the macro that is called. -/
def name (space : String) (call : Call) : String := canonicalName space call.returnType call.verb

/-- The key. -/
def text (space : String) (call : Call) : String :=
  call.name space ++
    match call.argument with
    | none => ""
    | some argument => "(" ++ argument ++ ")"

end Call

/-! ## Reading keys -/

/-- The characters before and after the first `c`. -/
def splitAtFirst (c : Char) : List Char → Option (List Char × List Char)
  | [] => none
  | d :: rest =>
    if d = c then some ([], rest)
    else (splitAtFirst c rest).map fun (before, after) => (d :: before, after)

/-- Reads a verb and the argument in parentheses after it. -/
def readVerb (text : List Char) : Option (String × Option String) :=
  match splitAtFirst '(' text with
  | none => some (String.ofList text, none)
  | some (verb, tail) =>
    match List.isSuffixOf? [')'] tail with
    | none => none
    | some argument =>
      if argument.contains '(' || argument.contains ')' then none
      else some (String.ofList verb, some (String.ofList argument))

/-- The part of a key after the namespace and the point that follows it. -/
def afterSpace? (space key : String) : Option (List Char) :=
  List.isPrefixOf? (space.toList ++ ['.']) key.toList

/-- The types and verbs of a namespace's macros. -/
structure Vocabulary where
  space : String
  types : List Kind
  verbs : List String
  deriving Repr

namespace Vocabulary

/-- The vocabulary of some macros. -/
def ofDefinitions (space : String) (definitions : List Definition) : Vocabulary :=
  ⟨space, definitions.map Definition.returnType, definitions.map Definition.verb⟩

/-- Takes a key apart, if it has the form of a macro call in these words. -/
def parse (vocabulary : Vocabulary) (key : String) : Option Call := do
  let rest ← afterSpace? vocabulary.space key
  let (typeName, tail) ← splitAtFirst '.' rest
  let returnType ← Kind.named? (String.ofList typeName)
  let (verb, argument) ← readVerb tail
  if vocabulary.types.contains returnType && vocabulary.verbs.contains verb then
    some ⟨returnType, verb, argument⟩
  else none

/-- The key has the form of a macro call. -/
def isMacroLike (vocabulary : Vocabulary) (key : String) : Bool := (vocabulary.parse key).isSome

/-- The key is laid out like a macro name of the namespace, whatever the type and the verb. -/
def inSpace (vocabulary : Vocabulary) (key : String) : Bool :=
  match afterSpace? vocabulary.space key with
  | some rest => rest.contains '.'
  | none => false

end Vocabulary

end Expansion.Macro
