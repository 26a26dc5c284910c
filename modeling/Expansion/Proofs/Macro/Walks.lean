import Expansion.Proofs.Macro.Phase

/-!
  The walks of a run.

  `Settles` is the loop of one phase and `Runs` the sequence of phases, as relations: they count the
  walks taken and need no bound on them but the limit of the settings.  What they relate is what the
  evaluator computes (`value_converge_of_settles`, `value_runPhases_of_runs`).  When the macros
  rewrite their wrappers, a phase settles within two walks: the modifiers of the first walk leave no
  key of the phase, and the second walk finds nothing (`exists_settles`, `exists_runs`).  A run that
  succeeds leaves no key that calls a macro (`Runs.clean`).
-/

namespace Expansion.Evaluator

/-- The limit of walks, if there is one, is not reached. -/
def MayWalk (evaluator : Evaluator) (walks : Nat) : Prop :=
  ∀ limit, evaluator.settings.maxWalks = some limit → walks < limit

/-- From `walks` walks and `modifiers` modifiers on, the phase takes so many more walks and ends
with a result and a document. -/
inductive Settles (evaluator : Evaluator) (resolve : Resolve) (phase : Phase) :
    (walks modifiers : Nat) → Document → (taken : Nat) →
      Except MacroError PhaseReport × Document → Prop
  | limited {walks modifiers : Nat} {doc : Document} (h : ¬ evaluator.MayWalk walks) :
    Settles evaluator resolve phase walks modifiers doc 0
      (.error (.walkLimitExceeded phase walks), doc)
  | stopped {walks modifiers : Nat} {doc : Document} {e : MacroError}
    (h : evaluator.MayWalk walks) (hw : (evaluator.walkWith resolve phase doc).value = .error e) :
    Settles evaluator resolve phase walks modifiers doc 1 (.error e, doc)
  | rested {walks modifiers : Nat} {doc : Document} {pending : Pending}
    (h : evaluator.MayWalk walks)
    (hw : (evaluator.walkWith resolve phase doc).value = .ok pending)
    (he : pending.isEmpty = true) :
    Settles evaluator resolve phase walks modifiers doc 1
      (.ok ⟨phase, walks + 1, modifiers⟩, doc)
  | failed {walks modifiers : Nat} {doc doc' : Document} {pending : Pending} {e : MacroError}
    (h : evaluator.MayWalk walks)
    (hw : (evaluator.walkWith resolve phase doc).value = .ok pending)
    (he : pending.isEmpty = false) (ha : (pending.applyAll doc).value = (.error e, doc')) :
    Settles evaluator resolve phase walks modifiers doc 1 (.error e, doc')
  | again {walks modifiers applied taken : Nat} {doc doc' : Document} {pending : Pending}
    {out : Except MacroError PhaseReport × Document} (h : evaluator.MayWalk walks)
    (hw : (evaluator.walkWith resolve phase doc).value = .ok pending)
    (he : pending.isEmpty = false) (ha : (pending.applyAll doc).value = (.ok applied, doc'))
    (hs : Settles evaluator resolve phase (walks + 1) (modifiers + applied) doc' taken out) :
    Settles evaluator resolve phase walks modifiers doc (taken + 1) out

/-- The phases run one after the other up to the first error; the walks of each are counted. -/
inductive Runs (evaluator : Evaluator) (resolve : Resolve) :
    List Phase → Document → (walks : List (Phase × Nat)) →
      Except MacroError (List PhaseReport) × Document → Prop
  | nil {doc : Document} : Runs evaluator resolve [] doc [] (.ok [], doc)
  | stopped {phase : Phase} {rest : List Phase} {doc doc' : Document} {taken : Nat}
    {e : MacroError} (h : Settles evaluator resolve phase 0 0 doc taken (.error e, doc')) :
    Runs evaluator resolve (phase :: rest) doc [(phase, taken)] (.error e, doc')
  | next {phase : Phase} {rest : List Phase} {doc doc' doc'' : Document} {taken : Nat}
    {report : PhaseReport} {walks : List (Phase × Nat)}
    {result : Except MacroError (List PhaseReport)}
    (h : Settles evaluator resolve phase 0 0 doc taken (.ok report, doc'))
    (hr : Runs evaluator resolve rest doc' walks (result, doc'')) :
    Runs evaluator resolve (phase :: rest) doc ((phase, taken) :: walks)
      (result.map (report :: ·), doc'')

variable {evaluator : Evaluator} {resolve : Resolve} {phase : Phase} {doc doc' : Document}

/-! ## What the evaluator computes -/

/-- With no walk left, a phase reports how many it has taken. -/
theorem value_converge_zero (evaluator : Evaluator) (resolve : Resolve) (phase : Phase)
    (walks modifiers : Nat) (doc : Document) :
    (evaluator.converge resolve phase 0 walks modifiers doc).value
      = (.error (.walkLimitExceeded phase walks), doc) := rfl

/-- With a walk left, a phase walks, and goes on when there was something to do. -/
theorem value_converge_succ (evaluator : Evaluator) (resolve : Resolve) (phase : Phase)
    (budget walks modifiers : Nat) (doc : Document) :
    (evaluator.converge resolve phase (budget + 1) walks modifiers doc).value =
      match (evaluator.walkWith resolve phase doc).value with
      | .error e => (.error e, doc)
      | .ok pending =>
        if pending.isEmpty then (.ok ⟨phase, walks + 1, modifiers⟩, doc)
        else
          match (pending.applyAll doc).value with
          | (.error e, doc') => (.error e, doc')
          | (.ok applied, doc') =>
            (evaluator.converge resolve phase budget (walks + 1) (modifiers + applied)
              doc').value := by
  rw [converge, Edit.value_current_bind, Edit.value_bind, Edit.value_run]
  cases (evaluator.walkWith resolve phase doc).value with
  | error e => rfl
  | ok pending =>
    simp only
    cases pending.isEmpty with
    | true => rfl
    -- The modifiers run, and unless they fail the phase goes on from what they leave.
    | false =>
      simp only [Bool.false_eq_true, if_false, Edit.value_bind, Edit.value_onError]
      match (pending.applyAll doc).value with
      | (.ok applied, doc') => rfl
      | (.error e, doc') => rfl

/-- Below the limit there is a walk left. -/
theorem MayWalk.exists_budget {walks taken budget : Nat} (h : evaluator.MayWalk walks)
    (hlimit : ∀ limit, evaluator.settings.maxWalks = some limit → budget = limit - walks)
    (hnone : evaluator.settings.maxWalks = none → taken + 1 ≤ budget) :
    ∃ left, budget = left + 1 := by
  cases hm : evaluator.settings.maxWalks with
  | none => exact ⟨budget - 1, by have := hnone hm; omega⟩
  | some limit => exact ⟨budget - 1, by have := hlimit limit hm; have := h limit hm; omega⟩

/-- At the limit there is no walk left. -/
theorem budget_eq_zero {walks budget : Nat} (h : ¬ evaluator.MayWalk walks)
    (hlimit : ∀ limit, evaluator.settings.maxWalks = some limit → budget = limit - walks) :
    budget = 0 := by
  cases hm : evaluator.settings.maxWalks with
  | none => exact absurd (fun limit hl => by simp [hm] at hl) h
  | some limit =>
    have hle : ¬ walks < limit := fun hlt => h fun l hl => by
      obtain rfl : limit = l := Option.some.inj (hm.symm.trans hl)
      exact hlt
    have := hlimit limit hm
    omega

/-- A phase that settles does so in the evaluator, given the walks left under the limit, or enough
of them when there is none.  The budget of the loop is what the limit leaves after the walks so far,
so both run out at once. -/
theorem value_converge_of_settles {walks modifiers taken : Nat}
    {out : Except MacroError PhaseReport × Document}
    (h : Settles evaluator resolve phase walks modifiers doc taken out) {budget : Nat}
    (hlimit : ∀ limit, evaluator.settings.maxWalks = some limit → budget = limit - walks)
    (hnone : evaluator.settings.maxWalks = none → taken ≤ budget) :
    (evaluator.converge resolve phase budget walks modifiers doc).value = out := by
  induction h generalizing budget with
  | limited hmay =>
    rw [budget_eq_zero hmay hlimit, value_converge_zero]
  | stopped hmay hw =>
    obtain ⟨left, rfl⟩ := hmay.exists_budget hlimit hnone
    rw [value_converge_succ, hw]
  | rested hmay hw he =>
    obtain ⟨left, rfl⟩ := hmay.exists_budget hlimit hnone
    rw [value_converge_succ, hw]
    simp [he]
  | failed hmay hw he ha =>
    obtain ⟨left, rfl⟩ := hmay.exists_budget hlimit hnone
    rw [value_converge_succ, hw]
    simp [he, ha]
  -- One walk is used up, on both counts.
  | again hmay hw he ha hs ih =>
    obtain ⟨left, rfl⟩ := hmay.exists_budget hlimit hnone
    rw [value_converge_succ, hw]
    simp only [he, Bool.false_eq_true, if_false, ha]
    refine ih (fun limit hm => ?_) fun hm => ?_
    · have := hlimit limit hm
      omega
    · have := hnone hm
      omega

/-- A phase that takes no more than two walks is what the evaluator does. -/
theorem value_converge_of_settles_start {taken : Nat}
    {out : Except MacroError PhaseReport × Document}
    (h : Settles evaluator resolve phase 0 0 doc taken out) (ht : taken ≤ 2) :
    (evaluator.converge resolve phase evaluator.walkBudget 0 0 doc).value = out := by
  refine value_converge_of_settles h (fun limit hm => ?_) fun hm => ?_
  · simp [walkBudget, hm]
  · have hlarge : 2 ≤ Nat.pow 2 64 := by decide
    simp only [walkBudget, hm, Option.getD_none]
    omega

/-- A run in which no phase takes more than two walks is what the evaluator does. -/
theorem value_runPhases_of_runs {phases : List Phase} {walks : List (Phase × Nat)}
    {out : Except MacroError (List PhaseReport) × Document}
    (h : Runs evaluator resolve phases doc walks out) (hw : ∀ entry ∈ walks, entry.2 ≤ 2) :
    (evaluator.runPhases resolve phases doc).value = out := by
  induction h with
  | nil => rfl
  | stopped hs =>
    have hc := value_converge_of_settles_start hs (hw _ List.mem_cons_self)
    rw [runPhases, Edit.value_bind, hc]
  | @next phase rest doc d d' taken report walks result hs hr ih =>
    have hc := value_converge_of_settles_start hs (hw _ List.mem_cons_self)
    -- The walks of the other phases are among those that are counted.
    have hrest := ih fun entry he => hw entry (List.mem_cons_of_mem _ he)
    rw [runPhases, Edit.value_bind_ok hc, Edit.value_bind, hrest]
    cases result <;> rfl

/-! ## Two walks -/

/-- Where no key of the phase is left, one walk is enough. -/
theorem exists_settles_of_clean (h : doc.InShape) (hev : evaluator.Rewriting resolve)
    {phases : List Phase} (hp : phase ∈ phases)
    (hclean : ∀ path, ¬ doc.toValue.Occurs (evaluator.registry.Calls phases) path)
    (walks modifiers : Nat) :
    ∃ taken out, taken ≤ 1 ∧ Settles evaluator resolve phase walks modifiers doc taken out := by
  by_cases hmay : evaluator.MayWalk walks
  · cases hw : (evaluator.walkWith resolve phase doc).value with
    | error e => exact ⟨1, _, Nat.le_refl 1, .stopped hmay hw⟩
    | ok pending =>
      exact ⟨1, _, Nat.le_refl 1, .rested hmay hw (isEmpty_of_clean h hev hp hclean hw)⟩
  · exact ⟨0, _, Nat.zero_le 1, .limited hmay⟩

/-- A phase settles within two walks when no key of earlier phases is left.  It may settle earlier,
with an error or since there is nothing to do. -/
theorem exists_settles (h : doc.InShape) (hev : evaluator.Rewriting resolve) {done : List Phase}
    (hdone : ∀ path, ¬ doc.toValue.Occurs (evaluator.registry.Calls done) path)
    (phase : Phase) (walks modifiers : Nat) :
    ∃ taken out, taken ≤ 2 ∧ Settles evaluator resolve phase walks modifiers doc taken out := by
  by_cases hmay : evaluator.MayWalk walks
  · cases hw : (evaluator.walkWith resolve phase doc).value with
    | error e => exact ⟨1, _, by omega, .stopped hmay hw⟩
    | ok pending =>
      cases he : pending.isEmpty with
      | true => exact ⟨1, _, by omega, .rested hmay hw he⟩
      | false =>
        match ha : (pending.applyAll doc).value with
        | (.error e, doc') => exact ⟨1, _, by omega, .failed hmay hw he ha⟩
        | (.ok applied, doc') =>
          -- The modifiers leave no key of the phase, so the second walk is the last.
          obtain ⟨hshape, hclean⟩ := clean_of_applyAll h hev hdone hw ha
          obtain ⟨taken, out, htaken, hs⟩ :=
            exists_settles_of_clean hshape hev List.mem_cons_self hclean (walks + 1)
              (modifiers + applied)
          exact ⟨taken + 1, out, by omega, .again hmay hw he ha hs⟩
  · exact ⟨0, _, by omega, .limited hmay⟩

/-- A phase that settles with a report ends with a walk that finds nothing, and leaves no key of the
phases so far.  By induction on the walks.  The keys of earlier phases do not come back, since no
macro brings a key in. -/
theorem Settles.clean {walks modifiers taken : Nat} {report : PhaseReport}
    {out : Except MacroError PhaseReport × Document}
    (hs : Settles evaluator resolve phase walks modifiers doc taken out)
    (hout : out = (.ok report, doc')) (h : doc.InShape) (hev : evaluator.Rewriting resolve)
    {done : List Phase}
    (hdone : ∀ path, ¬ doc.toValue.Occurs (evaluator.registry.Calls done) path) :
    doc'.InShape ∧
      (∀ path, ¬ doc'.toValue.Occurs (evaluator.registry.Calls (phase :: done)) path) ∧
      ∃ pending, (evaluator.walkWith resolve phase doc').value = .ok pending ∧
        pending.isEmpty = true := by
  induction hs with
  | limited => cases hout
  | stopped => cases hout
  | failed => cases hout
  | rested hmay hw he =>
    obtain ⟨-, rfl⟩ := Prod.mk.inj hout
    exact ⟨h, clean_of_isEmpty h hev hdone hw he, _, hw, he⟩
  | again hmay hw he ha hs ih =>
    obtain ⟨hshape, hclean⟩ := clean_of_applyAll h hev hdone hw ha
    exact ih hout hshape fun path ho => hclean path
      (ho.mono fun key ⟨p, hp, hcalls⟩ => ⟨p, List.mem_cons_of_mem phase hp, hcalls⟩)

/-- A phase that is carried out with a report leaves no key of the phases so far. -/
theorem clean_of_converge (h : doc.InShape) (hev : evaluator.Rewriting resolve) {done : List Phase}
    (hdone : ∀ path, ¬ doc.toValue.Occurs (evaluator.registry.Calls done) path)
    {report : PhaseReport}
    (hc : (evaluator.converge resolve phase evaluator.walkBudget 0 0 doc).value
      = (.ok report, doc')) :
    doc'.InShape ∧
      ∀ path, ¬ doc'.toValue.Occurs (evaluator.registry.Calls (phase :: done)) path := by
  obtain ⟨taken, out, htaken, hs⟩ := exists_settles h hev hdone phase 0 0
  have hout : out = (.ok report, doc') := (value_converge_of_settles_start hs htaken).symm.trans hc
  obtain ⟨hshape, hclean, -⟩ := hs.clean hout h hev hdone
  exact ⟨hshape, hclean⟩

/-- Phases that run take two walks each at most. -/
theorem exists_runs (h : doc.InShape) (hev : evaluator.Rewriting resolve) {done : List Phase}
    (hdone : ∀ path, ¬ doc.toValue.Occurs (evaluator.registry.Calls done) path)
    (phases : List Phase) :
    ∃ walks out, (∀ entry ∈ walks, entry.2 ≤ 2) ∧ Runs evaluator resolve phases doc walks out := by
  induction phases generalizing doc done with
  | nil => exact ⟨[], _, by simp, .nil⟩
  | cons phase rest ih =>
    obtain ⟨taken, out, htaken, hs⟩ := exists_settles h hev hdone phase 0 0
    match out, hs with
    | (.error e, doc'), hs => exact ⟨[(phase, taken)], _, by simpa using htaken, .stopped hs⟩
    | (.ok report, doc'), hs =>
      obtain ⟨hshape, hclean, -⟩ := hs.clean rfl h hev hdone
      obtain ⟨walks, out, hwalks, hr⟩ := ih hshape hclean
      exact ⟨(phase, taken) :: walks, _, List.forall_mem_cons.mpr ⟨htaken, hwalks⟩, .next hs hr⟩

/-- A run that succeeds leaves no key that calls a macro in its phases or in those before.  By
induction on the phases, each of which adds itself to those that are done. -/
theorem Runs.clean {phases : List Phase} {walks : List (Phase × Nat)} {reports : List PhaseReport}
    {out : Except MacroError (List PhaseReport) × Document}
    (hr : Runs evaluator resolve phases doc walks out) (hout : out = (.ok reports, doc'))
    (h : doc.InShape) (hev : evaluator.Rewriting resolve) {done : List Phase}
    (hdone : ∀ path, ¬ doc.toValue.Occurs (evaluator.registry.Calls done) path) :
    doc'.InShape ∧
      (∀ path, ¬ doc'.toValue.Occurs (evaluator.registry.Calls (phases.reverse ++ done)) path) ∧
      (phases ≠ [] → ∃ phase pending, (evaluator.walkWith resolve phase doc').value = .ok pending ∧
        pending.isEmpty = true) := by
  induction hr generalizing done reports with
  | nil =>
    obtain ⟨-, rfl⟩ := Prod.mk.inj hout
    exact ⟨h, hdone, fun hne => absurd rfl hne⟩
  | stopped => cases hout
  | @next phase rest doc d d' taken report walks result hs hr ih =>
    obtain ⟨hshape, hclean, hlast⟩ := hs.clean rfl h hev hdone
    cases result with
    | error e => cases hout
    | ok reports =>
      obtain ⟨-, rfl⟩ := Prod.mk.inj hout
      obtain ⟨hshape', hclean', hlast'⟩ := ih rfl hshape hclean
      refine ⟨hshape', by simpa using hclean', fun _ => ?_⟩
      -- The last walk is that of the last phase.
      by_cases hrest : rest = []
      · subst hrest
        cases hr
        exact ⟨phase, hlast⟩
      · exact hlast' hrest

end Expansion.Evaluator
