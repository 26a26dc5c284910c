import Expansion.Proofs.Macro.Complete

/-!
  The errors that runs report.

  Most errors name what is wrong with the document or the attributes (`MacroError.Direct`).  The
  others are about the run: a limit of levels or of walks that is reached, and macro keys that are
  left; all but the last two are called ordinary (`MacroError.Ordinary`).  An error is told by its
  root cause, so the macros and modifiers that it came through do not matter.

  The modifiers of macros meet with direct errors only, and the macros with what they do not get
  (`MacroError.Unmet`) and the limit of levels.  A run reports the limit of walks only when its
  settings forbid a further walk, and never that keys are left (`Evaluator.reports_run`, by
  induction on the walks, the phases and the levels).

  `Reports` is what is carried from step to step: it says of one result which errors it may be, and
  a step passes on what the steps in it report.
-/

namespace Expansion

namespace MacroError

/-- The error, without the macros that it came through, is not about the walks of a run or its
result. -/
def Ordinary (e : MacroError) : Prop :=
  match e.rootCause with
  | .walkLimitExceeded _ _ => False
  | .unresolvedMacros _ => False
  | _ => True

/-- The error comes from the levels of lookups. -/
def TooDeep (e : MacroError) : Prop := ∃ limit, e.rootCause = .lookupDepthExceeded limit

/-- The error is about a document, a value or an attribute. -/
def Direct (e : MacroError) : Prop :=
  match e.rootCause with
  | .walkLimitExceeded _ _ => False
  | .unresolvedMacros _ => False
  | .lookupDepthExceeded _ => False
  | _ => True

/-- An error stays direct when a modifier passes it on. -/
theorem Direct.modifierExecution {e : MacroError} (h : e.Direct) (path macroName : String) :
    (MacroError.modifierExecution path macroName e).Direct := h

/-- Direct errors are ordinary. -/
theorem Direct.ordinary {e : MacroError} (h : e.Direct) : e.Ordinary := by
  rw [Direct] at h
  rw [Ordinary]
  generalize e.rootCause = cause at h ⊢
  cases cause <;> trivial

/-- Direct errors are not about the levels of lookups. -/
theorem Direct.not_tooDeep {e : MacroError} (h : e.Direct) : ¬ e.TooDeep := by
  rintro ⟨limit, hlimit⟩
  rw [Direct, hlimit] at h
  exact h

/-- A macro does not get what it asks for: of the document, of its branch, or of the attributes. -/
inductive Unmet : MacroError → Prop
  | document (e : DocumentError) : Unmet (.document e)
  | input (path macroName : String) (expected : List Kind) (actual : Kind) :
      Unmet (.macroTypeMismatch path macroName expected actual)
  | missing (name : String) : Unmet (.attributeNotFound name)
  | declared (name : String) (expected actual : Kind) :
      Unmet (.attributeTypeMismatch name expected actual)

/-- What a macro does not get is a direct error. -/
theorem Unmet.direct {e : MacroError} (h : e.Unmet) : e.Direct := by
  cases h <;> trivial

end MacroError

/-- If the result is an error, it is one of those given. -/
def Reports {α : Type} (ok : MacroError → Prop) (r : Except MacroError α) : Prop :=
  ∀ e, r = .error e → ok e

section

variable {α β : Type} {ok : MacroError → Prop}

/-- A result that is no error reports nothing. -/
theorem reports_ok (a : α) : Reports ok (.ok a : Except MacroError α) := by
  intro e h
  cases h

/-- An error that is allowed may be reported. -/
theorem reports_error {e : MacroError} (h : ok e) :
    Reports ok (.error e : Except MacroError α) := by
  intro e' he
  obtain rfl := Except.error.inj he
  exact h

/-- More errors may be allowed. -/
theorem Reports.mono {good : MacroError → Prop} {r : Except MacroError α} (h : Reports ok r)
    (hok : ∀ e, ok e → good e) : Reports good r := fun e he => hok e (h e he)

/-- What is made of the answer does not matter. -/
theorem Reports.map {r : Except MacroError α} (h : Reports ok r) (f : α → β) :
    Reports ok (r.map f) := by
  cases r with
  | ok a => exact reports_ok _
  | error e => exact reports_error (h e rfl)

/-- Two steps report what each of them does. -/
theorem Reports.bind {r : Except MacroError α} (h : Reports ok r) {f : α → Except MacroError β}
    (hf : ∀ a, r = .ok a → Reports ok (f a)) : Reports ok (r.bind f) := by
  cases r with
  | ok a => exact hf a rfl
  | error e => exact reports_error (h e rfl)

/-- Errors are reported as they are renamed. -/
theorem reports_mapError {ε : Type} {f : ε → MacroError} (hf : ∀ e, ok (f e)) (r : Except ε α) :
    Reports ok (r.mapError f) := by
  cases r with
  | ok a => exact reports_ok _
  | error e => exact reports_error (hf e)

/-- Visits report what they report at any branch. -/
theorem reports_visitAll {σ : Type} {visit : Visit σ MacroError} {branches : List Branch}
    (h : ∀ branch ∈ branches, ∀ state, Reports ok (visit state branch).value) (state : σ) :
    Reports ok (visitAll visit branches state) := by
  induction branches generalizing state with
  | nil => exact reports_ok _
  | cons branch rest ih =>
    rw [visitAll]
    cases hv : (visit state branch).value with
    | error e => exact reports_error (h branch List.mem_cons_self state e hv)
    | ok next => exact ih (fun b hb => h b (List.mem_cons_of_mem _ hb)) next

end

open MacroError (Direct Unmet)

/-! ## Modifiers -/

/-- Writes report what is wrong with a path. -/
theorem Instruction.reports_write (path : Path) (v : Value) (doc : Document) :
    Reports Direct (write path v doc).value.1 := by
  rw [write, Edit.value_mapError]
  exact reports_mapError (fun _ => trivial) _

/-- Instructions report what is wrong with a path or with a value, a transform also a value that it
cannot render. -/
theorem Instruction.reports_apply (i : Instruction) (doc : Document) :
    Reports Direct (i.apply doc).value.1 := by
  cases i with
  | set path v => exact reports_write path v doc
  | overlay path v =>
    rw [apply, Edit.value_mapError]
    exact reports_mapError (fun _ => trivial) _
  | delete path =>
    rw [apply, Edit.value_mapError]
    exact reports_mapError (fun _ => trivial) _
  | transform source target form =>
    rw [apply, Edit.value_current_bind, Edit.value_bind, Edit.value_lift]
    have hread : Reports Direct ((doc.getValue source).mapError MacroError.document) :=
      reports_mapError (fun _ => trivial) _
    cases hv : (doc.getValue source).mapError MacroError.document with
    | error e => exact reports_error (hread e hv)
    | ok v =>
      simp only [Edit.value_bind, Edit.value_lift]
      have htext : Reports Direct ((form.render v).mapError (MacroError.encode form)) :=
        reports_mapError (fun _ => trivial) _
      cases ht : (form.render v).mapError (MacroError.encode form) with
      | error e => exact reports_error (htext e ht)
      | ok text => exact reports_write target _ doc

/-- The instructions of a modifier report direct errors, in the name of the modifier. -/
theorem Modifier.reports_applyInstructions (m : Modifier) (instructions : List Instruction)
    (doc : Document) : Reports Direct (m.applyInstructions instructions doc).value.1 := by
  induction instructions generalizing doc with
  | nil => exact reports_ok ()
  | cons i rest ih =>
    rw [value_applyInstructions_cons]
    rcases hi : (i.apply doc).value with ⟨e | _, d⟩
    · have he : e.Direct := i.reports_apply doc e (congrArg Prod.fst hi)
      exact reports_error (he.modifierExecution _ _)
    · exact ih d

/-- Modifiers one after the other report direct errors. -/
theorem Modifier.reports_applyEach (modifiers : List Modifier) (doc : Document) :
    Reports Direct (applyEach modifiers doc).value.1 := by
  induction modifiers generalizing doc with
  | nil => exact reports_ok ()
  | cons m rest ih =>
    rw [applyEach, Edit.value_bind]
    rcases hm : (m.apply doc).value with ⟨e | _, d⟩
    · exact reports_error (m.reports_applyInstructions _ doc e (congrArg Prod.fst hm))
    · exact ih d

/-- So do the modifiers of a walk. -/
theorem Pending.reports_applyAll (pending : Pending) (doc : Document) :
    Reports Direct (pending.applyAll doc).value.1 := by
  rw [applyAll, Edit.value_bind]
  rcases he : (Modifier.applyEach pending.inOrder doc).value with ⟨e | _, d⟩
  · exact reports_error (Modifier.reports_applyEach _ doc e (congrArg Prod.fst he))
  · exact reports_ok _

/-! ## The built-in macros -/

namespace Macro

variable {ok : MacroError → Prop} {attributes : Attributes} {context : Context} {branch : Branch}
  {invocation : Invocation}

/-- The kind of the branch may be refused. -/
theorem reports_expectInput (branch : Branch) (invocation : Invocation) (accepted : List Kind) :
    Reports Unmet (expectInput branch invocation accepted) := by
  rw [expectInput]
  split
  · exact reports_ok _
  · exact reports_error (.input _ _ _ _)

/-- The attribute may be missing, or declared with another type. -/
theorem reports_attribute (attributes : Attributes) (name : String) (expected : Kind) :
    Reports Unmet (attributes.lookup name expected) := by
  rw [Attributes.lookup]
  cases Fields.find? name attributes with
  | none => exact reports_error (.missing _)
  | some a =>
    simp only
    split
    · exact reports_ok _
    · exact reports_error (.declared _ _ _)

/-- A lookup may not get its branch, the name in it, or the attribute. -/
theorem reports_lookupAttribute (attributes : Attributes) (context : Context) (branch : Branch)
    (invocation : Invocation) :
    Reports Unmet (lookupAttribute attributes context branch invocation) :=
  (reports_expectInput _ _ _).bind fun _ _ =>
    (reports_mapError .document _).bind fun name _ =>
      (reports_attribute attributes name _).bind fun _ _ => reports_ok _

/-- A built-in macro reports what it does not get, and a lookup of a composite what the expansion of
the value that it finds does.  So only lookups of composites report errors that are not their own.
-/
theorem reports_builtin (hok : ∀ e : MacroError, e.Unmet → ok e)
    (hr : ∀ found, invocation.definition.returnType.isContainer = true →
      lookupAttribute attributes context branch invocation = .ok found →
      Reports ok (context.resolve found.2).value) {r : Registered}
    (hm : r ∈ builtins attributes) : Reports ok (r.factory context branch invocation).value := by
  rcases factory_of_mem_builtins hm with hf | ⟨accepted, form, hf⟩ | hf
  · rw [hf, value_lookup]
    refine ((reports_lookupAttribute _ _ _ _).mono hok).bind fun found hfound => ?_
    rw [modifierFor]
    split
    · rename_i hcontainer
      refine (hr found hcontainer hfound).bind fun x _ => Reports.map ?_ _
      exact (reports_mapError .document _).mono hok
    · exact reports_ok _
  · rw [hf, encode, Logged.value_pure]
    exact ((reports_expectInput _ _ _).bind fun _ _ => reports_ok _).mono hok
  · rw [hf, delete, Logged.value_pure]
    exact ((reports_expectInput _ _ _).bind fun _ _ => reports_ok _).mono hok

end Macro

/-! ## Walks and runs -/

namespace Evaluator

/-- A run may report ordinary errors, and a limit of walks that it has reached. -/
def MayReport (evaluator : Evaluator) (e : MacroError) : Prop :=
  e.Ordinary ∨ ∃ phase walks, e = .walkLimitExceeded phase walks ∧ ¬ evaluator.MayWalk walks

theorem mayReport_of_ordinary (evaluator : Evaluator) (e : MacroError) (h : e.Ordinary) :
    evaluator.MayReport e := Or.inl h

variable {evaluator : Evaluator} {resolve : Resolve} {phase : Phase} {doc doc' : Document}

/-- What the macros of the registry report a run may report. -/
def Reporting (evaluator : Evaluator) (resolve : Resolve) : Prop :=
  ∀ phase key invocation factory,
    evaluator.registry.lookup phase key = some (invocation, factory) →
    ∀ (doc : Document) (branch : Branch), Reports evaluator.MayReport
      (factory ⟨doc, phase, evaluator.registry.space, resolve⟩ branch invocation).value

/-- The check of the kind is no macro. -/
theorem Reporting.withoutKindCheck (h : evaluator.Reporting resolve) :
    evaluator.withoutKindCheck.Reporting resolve := h

/-- A visit reports what the macro of the key does, or that the key is unknown. -/
theorem reports_visit_of {ok : MacroError → Prop} {branch : Branch}
    (hunknown : ∀ path key, ok (.unknownMacro path key))
    (hfactory : ∀ key invocation factory,
      evaluator.registry.lookup phase key = some (invocation, factory) →
      Reports ok (factory ⟨doc, phase, evaluator.registry.space, resolve⟩ branch invocation).value)
    (pending : Pending) :
    Reports ok (evaluator.visit resolve phase doc pending branch).value := by
  rw [value_visit]
  cases branch.fieldName? with
  | none => exact reports_ok _
  | some key =>
    simp only
    cases hl : evaluator.registry.lookup phase key with
    | some found => exact (hfactory key found.1 found.2 hl).map _
    | none =>
      simp only
      split
      · rw [value_passOver]
        split
        · exact reports_error (hunknown _ _)
        · exact reports_ok _
      · exact reports_ok _

/-- A visit reports what a run may report. -/
theorem reports_visit (hev : evaluator.Reporting resolve) (pending : Pending) (branch : Branch) :
    Reports evaluator.MayReport (evaluator.visit resolve phase doc pending branch).value :=
  reports_visit_of (fun _ _ => Or.inl trivial)
    (fun key invocation factory hl => hev phase key invocation factory hl doc branch) pending

/-- So does a walk: besides what its visits report it may find no kind. -/
theorem reports_walkWith (h : doc.InShape) (hev : evaluator.Reporting resolve) :
    Reports evaluator.MayReport (evaluator.walkWith resolve phase doc).value := by
  rw [value_walkWith evaluator resolve phase h]
  refine Reports.bind ?_ fun _ _ =>
    reports_visitAll (fun branch _ state => reports_visit hev state branch) _
  rw [value_checkKind]
  split
  · exact reports_ok _
  · exact reports_error (Or.inl trivial)

/-- So does a phase, by induction on its walks. -/
theorem Settles.reports {walks modifiers taken : Nat}
    {out : Except MacroError PhaseReport × Document}
    (hs : Settles evaluator resolve phase walks modifiers doc taken out) (h : doc.InShape)
    (hrw : evaluator.Rewriting resolve) (hev : evaluator.Reporting resolve) :
    Reports evaluator.MayReport out.1 := by
  induction hs with
  | limited hmay => exact reports_error (Or.inr ⟨_, _, rfl, hmay⟩)
  | stopped hmay hw => exact reports_error (reports_walkWith h hev _ hw)
  | rested hmay hw he => exact reports_ok _
  | @failed walks modifiers doc d pending e hmay hw he ha =>
    have hfault : e.Direct := pending.reports_applyAll doc e (congrArg Prod.fst ha)
    exact reports_error (Or.inl hfault.ordinary)
  | again hmay hw he ha hs ih =>
    exact ih (clean_of_applyAll h hrw (not_occurs_calls_nil evaluator _) hw ha).1

/-- So do phases, by induction on the phases. -/
theorem Runs.reports {phases : List Phase} {walks : List (Phase × Nat)}
    {out : Except MacroError (List PhaseReport) × Document}
    (hr : Runs evaluator resolve phases doc walks out) (h : doc.InShape)
    (hrw : evaluator.Rewriting resolve) (hev : evaluator.Reporting resolve) :
    Reports evaluator.MayReport out.1 := by
  induction hr with
  | nil => exact reports_ok _
  | stopped hs => exact reports_error (hs.reports h hrw hev _ rfl)
  | next hs hr ih =>
    exact (ih (hs.clean rfl h hrw (not_occurs_calls_nil evaluator _)).1).map _

/-- So does a run; the check of its result has nothing to report. -/
theorem reports_runWith (h : doc.InShape) (hrw : evaluator.Rewriting resolve)
    (hev : evaluator.Reporting resolve) (whole : Bool) :
    Reports evaluator.MayReport (evaluator.runWith resolve whole doc).value.1 := by
  rw [value_runWith_of_rewriting h hrw]
  obtain ⟨walks, out, hle, hr⟩ := exists_runs h hrw (not_occurs_calls_nil evaluator _) Phase.all
  rw [value_runPhases_of_runs hr hle]
  exact (hr.reports h hrw hev).map _

/-! ## Runs of the built-in macros -/

section

variable {space : String} {attributes : Attributes} {settings : Settings} {kindCheck : Bool}

theorem reporting_builtin (ha : attributes.Ordered)
    (hr : ∀ v, v.Ordered →
      Reports (builtin space attributes settings kindCheck).MayReport (resolve v).value) :
    (builtin space attributes settings kindCheck).Reporting resolve := by
  intro phase key invocation factory hl doc branch
  obtain ⟨r, hmem, -, rfl, -⟩ :=
    (Registry.consistsOf_builtin space attributes).mem_of_lookup hl
  refine Macro.reports_builtin (fun e he => mayReport_of_ordinary _ e he.direct.ordinary)
    (fun found _ hfound => ?_) hmem
  exact hr found.2 (Macro.ordered_of_lookup ha (Macro.lookup_of_lookupAttribute hfound)).1

theorem reports_resolve (ha : attributes.Ordered) (levels : Nat) :
    ∀ v : Value, v.Ordered → Reports (builtin space attributes settings kindCheck).MayReport
      ((builtin space attributes settings kindCheck).resolve levels v).value := by
  induction levels with
  | zero =>
    intro v _
    rw [value_resolve_zero]
    exact reports_error (Or.inl trivial)
  | succ levels ih =>
    intro v hv
    rw [value_resolve_succ]
    have hruns := reports_runWith ⟨_, Shape.ofValue hv⟩
      (rewriting_resolve ha levels).withoutKindCheck
      (reporting_builtin ha ih).withoutKindCheck false
    exact hruns.map _

/-- A run reports ordinary errors, or a limit of walks that it has reached. -/
theorem reports_run (ha : attributes.Ordered) (h : doc.InShape) :
    Reports (builtin space attributes settings kindCheck).MayReport
      ((builtin space attributes settings kindCheck).run doc).value.1 :=
  reports_runWith h (rewriting_resolve ha _)
    (reporting_builtin ha (reports_resolve ha _)) true

end

end Evaluator

end Expansion
