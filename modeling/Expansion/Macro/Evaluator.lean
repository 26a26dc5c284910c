import Expansion.Document.Load
import Expansion.Document.Walk
import Expansion.Macro.Builtin
import Expansion.Macro.Report
import Expansion.Macro.Settings

/-!
  The expansion of documents.

  The phases run in order.  In each phase the document is walked for keys that call a macro of the
  phase, and the modifiers so collected are run; then it is walked again, until a walk finds
  nothing.  A failed run leaves the document with the changes made so far.

  Before every walk the document must say what it describes, in a field called `kind` in any case.
  Values that are expanded apart from the document, on behalf of lookups, need not.  They are
  expanded with the same macros and settings, one level deeper; the number of levels is limited.
-/

namespace Expansion

/-- Expands macros in documents. -/
structure Evaluator where
  registry : Registry
  settings : Settings := {}
  /-- Documents must say what they describe. -/
  kindCheck : Bool := true

namespace Evaluator

/-- Expands a value apart from the document. -/
abbrev Resolve := Value → Logged (Except MacroError Value)

/-- The evaluator of the built-in macros. -/
def withBuiltins (settings : Settings) (attributes : Attributes) : Logged Evaluator := do
  return { registry := ← Registry.withBuiltins settings.space attributes, settings }

/-- The same evaluator for documents that need not say what they describe. -/
def withoutKindCheck (evaluator : Evaluator) : Evaluator := { evaluator with kindCheck := false }

/-- The evaluator with further macros. -/
def defineAll (macros : List Macro.Registered) (evaluator : Evaluator) : Logged Evaluator := do
  return { evaluator with registry := ← evaluator.registry.defineAll macros }

/-! ## What a document describes -/

/-- The first field that is called `kind`, in any case. -/
def kindField? : List (String × Node) → Option (String × Node)
  | [] => none
  | (name, n) :: rest =>
    if Kind.equalIgnoringCase name "kind" then some (name, n) else kindField? rest

/-- A text or an object that is not empty. -/
def describes : Node → Bool
  | .scalar _ (.string s) => !s.isEmpty
  | .object _ fields => !fields.isEmpty
  | _ => false

/-- Why a document does not say what it describes. -/
def kindFault? (doc : Document) : Option KindFault :=
  match doc.root with
  | .object _ fields =>
    match kindField? fields with
    | none => some .missing
    | some (name, n) => if describes n then none else some (.empty (.field name))
  | root => some (.notObject root.kind)

/-- Checks that the document says what it describes, if that is asked for. -/
def checkKind (evaluator : Evaluator) (doc : Document) : Logged (Except MacroError Unit) := do
  match if evaluator.kindCheck then kindFault? doc else none with
  | none => return .ok ()
  | some fault =>
    Logged.note .error "Kind check failed" [("reason", fault.reason)]
    return .error (.unknownKind fault)

/-! ## Walks -/

/-- What is done about a key in the namespace that calls no macro of the phase. -/
def passOver (evaluator : Evaluator) (phase : Phase) (branch : Branch) (key : String) :
    Logged (Except MacroError Unit) := do
  if !(evaluator.registry.phasesFor key).isEmpty then
    Logged.note .debug "Macro key belongs to another phase"
      [("path", branch.text), ("key", key), ("phase", phase.name)]
    return .ok ()
  else if evaluator.settings.strict then
    Logged.note .error "Unknown macro" [("path", branch.text), ("key", key)]
    return .error (.unknownMacro branch.text key)
  else
    Logged.note .warn "Unknown macro key left as data" [("path", branch.text), ("key", key)]
    return .ok ()

/-- What is done at a branch: the modifier of a macro key joins those that are pending. -/
def visit (evaluator : Evaluator) (resolve : Resolve) (phase : Phase) (doc : Document) :
    Visit Pending MacroError := fun pending branch => do
  match branch.fieldName? with
  | none => return .ok pending
  | some key =>
    match evaluator.registry.lookup phase key with
    | some (invocation, factory) =>
      match ← factory ⟨doc, phase, evaluator.registry.space, resolve⟩ branch invocation with
      | .ok modifier => return .ok (← pending.insert modifier).2
      | .error e =>
        Logged.note .error "Macro failed"
          [("path", branch.text), ("macro_name", invocation.name), ("error", e.message)]
        return .error e
    | none =>
      if evaluator.registry.vocabulary.inSpace key then
        return (← evaluator.passOver phase branch key).map fun _ => pending
      else return .ok pending

/-- Walks a document in a phase and collects the modifiers of its macro keys. -/
def walkWith (evaluator : Evaluator) (resolve : Resolve) (phase : Phase) (doc : Document) :
    Logged (Except MacroError Pending) := do
  match ← evaluator.checkKind doc with
  | .error e => return .error e
  | .ok () =>
    match ← doc.walk .document (evaluator.visit resolve phase doc) {} with
    | .error e => return .error e
    | .ok (pending, tracker) =>
      Logged.note .debug "Walk complete"
        [("branches", toString tracker.len), ("modifiers", toString pending.len)]
      return .ok pending

/-! ## Runs -/

/-- Walks a document and runs the modifiers found, until a walk finds none.  `walks` and
`modifiers` count those so far, and `budget` the walks left. -/
def converge (evaluator : Evaluator) (resolve : Resolve) (phase : Phase) :
    (budget walks modifiers : Nat) → Edit MacroError PhaseReport
  | 0, walks, _ => do
    Edit.note .error "Walk limit exceeded" [("phase", phase.name), ("walks", toString walks)]
    Edit.fail (.walkLimitExceeded phase walks)
  | budget + 1, walks, modifiers => do
    let pending ← Edit.run (evaluator.walkWith resolve phase (← Edit.current))
    if pending.isEmpty then
      Edit.note .debug "Phase complete"
        [("phase", phase.name), ("walks", toString (walks + 1)),
         ("modifiers", toString modifiers)]
      return ⟨phase, walks + 1, modifiers⟩
    else
      let applied ← pending.applyAll.onError fun e =>
        Logged.note .error "Modifier execution failed"
          [("phase", phase.name), ("error", e.message)]
      converge evaluator resolve phase budget (walks + 1) (modifiers + applied)

/-- The number of walks that a phase may take: the limit, or as many as 64 bits can count. -/
def walkBudget (evaluator : Evaluator) : Nat := evaluator.settings.maxWalks.getD (Nat.pow 2 64)

/-- Runs phases one after the other. -/
def runPhases (evaluator : Evaluator) (resolve : Resolve) :
    List Phase → Edit MacroError (List PhaseReport)
  | [] => pure []
  | phase :: rest => do
    let report ← evaluator.converge resolve phase evaluator.walkBudget 0 0
    return report :: (← evaluator.runPhases resolve rest)

/-- The paths of the keys in the namespace. -/
def residue (evaluator : Evaluator) (doc : Document) :
    Logged (Except MacroError (List String)) := do
  let collect : Visit (List String) MacroError := fun paths branch =>
    match branch.fieldName? with
    | some key =>
      return .ok (if evaluator.registry.vocabulary.inSpace key then paths ++ [branch.text]
        else paths)
    | none => return .ok paths
  return (← doc.walk .document collect []).map (·.1)

/-- Checks that no key in the namespace is left. -/
def checkResidue (evaluator : Evaluator) (doc : Document) : Logged (Except MacroError Unit) := do
  match ← evaluator.residue doc with
  | .error e => return .error e
  | .ok [] => return .ok ()
  | .ok paths =>
    Logged.note .error "Macros left unresolved" [("count", toString paths.length)]
    return .error (.unresolvedMacros paths)

/-- Runs every phase.  Only a run over a whole document is held to leave no macro key. -/
def runWith (evaluator : Evaluator) (resolve : Resolve) (whole : Bool) :
    Edit MacroError Report := do
  Edit.note .info "Starting evaluation" []
  let report : Report := ⟨← evaluator.runPhases resolve Phase.all⟩
  if evaluator.settings.strict && whole then
    Edit.run (evaluator.checkResidue (← Edit.current))
  Edit.note .info "Evaluation complete"
    [("walks", toString report.walks), ("modifiers", toString report.modifiers)]
  return report

/-- Expands a value apart from the document, with so many levels left. -/
def resolve (evaluator : Evaluator) : (levels : Nat) → Resolve
  | 0, _ => do
    let limit := evaluator.settings.maxLookupDepth
    Logged.note .error "Lookup nesting limit reached" [("limit", toString limit)]
    return .error (.lookupDepthExceeded limit)
  | levels + 1, value => do
    let run := evaluator.withoutKindCheck.runWith (resolve evaluator levels) false
    let (result, doc) ← run (Document.ofValue value)
    return result.map fun _ => doc.toValue

/-- Expands a value apart from a whole document. -/
def resolveFully (evaluator : Evaluator) : Resolve :=
  evaluator.resolve evaluator.settings.maxLookupDepth

/-- Walks a document in a phase, without running the modifiers. -/
def walk (evaluator : Evaluator) (phase : Phase) (doc : Document) :
    Logged (Except MacroError Pending) :=
  evaluator.walkWith evaluator.resolveFully phase doc

/-- Expands a document in place. -/
def run (evaluator : Evaluator) : Edit MacroError Report :=
  evaluator.runWith evaluator.resolveFully true

/-- The value that a document expands to. -/
def evaluate (evaluator : Evaluator) (doc : Document) : Logged (Except MacroError Value) := do
  let (result, doc) ← evaluator.run doc
  return result.map fun _ => doc.toValue

end Evaluator

end Expansion
