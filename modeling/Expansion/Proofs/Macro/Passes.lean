import Expansion.Proofs.Macro.Complete
import Expansion.Proofs.Macro.Effect

/-!
  What a run without errors does.

  When the macros rewrite their wrappers, a phase that comes to its end is one walk, the modifiers
  found in it, and a walk that finds nothing (`exists_converge_iff`).  `PassesAll` puts phases in a
  row: these are the runs without errors (`exists_evaluate_iff`).  Reports and the journal are left
  out, so two runs can be compared by what they leave.

  What a walk finds and what its modifiers make of the value can be computed from the document
  (`forecast`), also where the changes of the document itself cannot.  A run in which one phase has
  something to do does what is forecast (`exists_run_of_forecast`).
-/

namespace Expansion.Evaluator

variable {evaluator : Evaluator} {resolve : Resolve} {phase : Phase} {doc doc' : Document}

/-! ## One phase -/

/-- The phase is carried out on `doc` without an error and leaves `doc'`. -/
structure Passes (evaluator : Evaluator) (resolve : Resolve) (phase : Phase)
    (doc doc' : Document) : Prop where
  mayWalk : evaluator.MayWalk 0
  applied : ∃ pending count, (evaluator.walkWith resolve phase doc).value = .ok pending ∧
    (pending.applyAll doc).value = (.ok count, doc') ∧
    (pending.isEmpty = false → evaluator.MayWalk 1)
  again : ∃ pending, (evaluator.walkWith resolve phase doc').value = .ok pending

/-- A phase leaves one document. -/
theorem Passes.unique {doc'' : Document} (h : evaluator.Passes resolve phase doc doc')
    (h' : evaluator.Passes resolve phase doc doc'') : doc' = doc'' := by
  obtain ⟨pending, count, hw, ha, -⟩ := h.applied
  obtain ⟨pending', count', hw', ha', -⟩ := h'.applied
  obtain rfl : pending = pending' := Except.ok.inj (hw.symm.trans hw')
  exact congrArg Prod.snd (ha.symm.trans ha')

/-- Where nothing is pending, nothing is changed. -/
theorem value_applyAll_of_isEmpty {pending : Pending} (h : pending.isEmpty = true)
    (doc : Document) : (pending.applyAll doc).value = (.ok 0, doc) := by
  obtain ⟨modifiers⟩ := pending
  obtain rfl : modifiers = [] := List.isEmpty_iff.mp h
  rw [Pending.applyAll, Pending.inOrder, List.map_nil, List.mergeSort_nil]
  rfl

/-- A phase comes to its end when it passes.  The loop ends after the first walk, when this finds
nothing, or after the second, which then finds nothing. -/
theorem exists_converge_iff (h : doc.InShape) (hev : evaluator.Rewriting resolve) :
    (∃ report, (evaluator.converge resolve phase evaluator.walkBudget 0 0 doc).value
      = (.ok report, doc')) ↔ evaluator.Passes resolve phase doc doc' := by
  have hnone := not_occurs_calls_nil evaluator doc.toValue
  constructor
  · rintro ⟨report, hc⟩
    obtain ⟨taken, out, htaken, hs⟩ := exists_settles h hev hnone phase 0 0
    obtain rfl : out = (.ok report, doc') :=
      (value_converge_of_settles_start hs htaken).symm.trans hc
    cases hs with
    | @rested _ _ _ pending hmay hw he =>
      refine ⟨hmay, ⟨pending, 0, hw, value_applyAll_of_isEmpty he doc, fun hne => ?_⟩, pending, hw⟩
      rw [he] at hne
      cases hne
    | @again _ _ applied _ _ next pending _ hmay hw he ha hs =>
      -- The second walk finds nothing, so it is the last.
      obtain ⟨hshape, hclean⟩ := clean_of_applyAll h hev hnone hw ha
      cases hs with
      | rested hmay' hw' he' => exact ⟨hmay, ⟨pending, applied, hw, ha, fun _ => hmay'⟩, _, hw'⟩
      | again hmay' hw' he' ha' hs' =>
        have hempty := isEmpty_of_clean hshape hev List.mem_cons_self hclean hw'
        rw [he'] at hempty
        cases hempty
  · rintro ⟨hmay, ⟨pending, count, hw, ha, hmore⟩, pending', hw'⟩
    cases he : pending.isEmpty with
    | true =>
      rw [value_applyAll_of_isEmpty he] at ha
      obtain ⟨-, rfl⟩ := Prod.mk.inj ha
      exact ⟨_, value_converge_of_settles_start (.rested hmay hw he) (by decide)⟩
    | false =>
      obtain ⟨hshape, hclean⟩ := clean_of_applyAll h hev hnone hw ha
      have hempty := isEmpty_of_clean hshape hev List.mem_cons_self hclean hw'
      have hs : Settles evaluator resolve phase 0 0 doc 2 (.ok ⟨phase, 2, 0 + count⟩, doc') :=
        .again hmay hw he ha (.rested (hmore he) hw' hempty)
      exact ⟨_, value_converge_of_settles_start hs (Nat.le_refl 2)⟩

/-! ## Phases in a row -/

/-- The phases are carried out on `doc` one after the other, and leave `doc'`. -/
inductive PassesAll (evaluator : Evaluator) (resolve : Resolve) :
    List Phase → Document → Document → Prop
  | nil {doc : Document} : PassesAll evaluator resolve [] doc doc
  | cons {phase : Phase} {rest : List Phase} {doc next doc' : Document}
    (h : evaluator.Passes resolve phase doc next)
    (hr : PassesAll evaluator resolve rest next doc') :
    PassesAll evaluator resolve (phase :: rest) doc doc'

/-- Phases that run to their end are those that pass.  By induction on the phases; each leaves a
document in shape for the next one. -/
theorem exists_runPhases_iff (h : doc.InShape) (hev : evaluator.Rewriting resolve)
    {phases : List Phase} :
    (∃ reports, (evaluator.runPhases resolve phases doc).value = (.ok reports, doc')) ↔
      evaluator.PassesAll resolve phases doc doc' := by
  induction phases generalizing doc with
  | nil =>
    constructor
    · rintro ⟨reports, hr⟩
      obtain rfl : doc = doc' := congrArg Prod.snd hr
      exact .nil
    · intro hp
      cases hp
      exact ⟨[], rfl⟩
  | cons phase rest ih =>
    have hshape : ∀ {report next}, (evaluator.converge resolve phase evaluator.walkBudget 0 0
        doc).value = (.ok report, next) → next.InShape := fun hc =>
      (clean_of_converge h hev (not_occurs_calls_nil evaluator doc.toValue) hc).1
    constructor
    · -- The first phase comes to its end and passes, and so do the others over what it leaves.
      rintro ⟨reports, hr⟩
      rw [runPhases, Edit.value_bind] at hr
      rcases hc : (evaluator.converge resolve phase evaluator.walkBudget 0 0 doc).value
        with ⟨e | report, next⟩
      · rw [hc] at hr
        cases hr
      · rw [hc] at hr
        simp only [Edit.value_bind] at hr
        rcases hrest : (evaluator.runPhases resolve rest next).value with ⟨e | more, last⟩
        · rw [hrest] at hr
          cases hr
        · rw [hrest] at hr
          obtain rfl : last = doc' := congrArg Prod.snd hr
          exact .cons ((exists_converge_iff h hev).mp ⟨report, hc⟩)
            ((ih (hshape hc)).mp ⟨more, hrest⟩)
    · rintro (_ | ⟨hp, hr⟩)
      obtain ⟨report, hc⟩ := (exists_converge_iff h hev).mpr hp
      obtain ⟨more, hrest⟩ := (ih (hshape hc)).mpr hr
      refine ⟨report :: more, ?_⟩
      rw [runPhases, Edit.value_bind_ok hc, Edit.value_bind, hrest]
      rfl

/-- A run that comes to its end is the expansion of what it leaves. -/
theorem value_evaluate_of_run {report : Report}
    (h : (evaluator.run doc).value = (.ok report, doc')) :
    (evaluator.evaluate doc).value = .ok doc'.toValue := by
  rw [evaluate, Logged.value_bind, h]
  rfl

/-- A document expands to what is left when all phases pass.  The check of what is left finds
nothing after a run that succeeds, so only the phases count. -/
theorem exists_evaluate_iff (h : doc.InShape) (hev : evaluator.Rewriting evaluator.resolveFully)
    {v : Value} :
    (evaluator.evaluate doc).value = .ok v ↔
      ∃ doc', evaluator.PassesAll evaluator.resolveFully Phase.all doc doc' ∧
        doc'.toValue = v := by
  -- Nothing is left over, so the run is its phases.
  have hrun : (evaluator.evaluate doc).value =
      ((evaluator.runPhases evaluator.resolveFully Phase.all doc).value.1.map fun _ =>
        (evaluator.runPhases evaluator.resolveFully Phase.all doc).value.2.toValue) := by
    rw [evaluate, run, Logged.value_bind, value_runWith_of_rewriting h hev]
    cases (evaluator.runPhases evaluator.resolveFully Phase.all doc).value.1 <;> rfl
  rw [hrun]
  constructor
  · intro hv
    rcases hp : (evaluator.runPhases evaluator.resolveFully Phase.all doc).value
      with ⟨e | reports, doc'⟩
    · rw [hp] at hv
      cases hv
    · rw [hp] at hv
      exact ⟨doc', (exists_runPhases_iff h hev).mp ⟨reports, hp⟩, Except.ok.inj hv⟩
  · rintro ⟨doc', hp, rfl⟩
    obtain ⟨reports, hr⟩ := (exists_runPhases_iff h hev).mpr hp
    rw [hr]
    rfl

/-! ## One phase with something to do -/

/-- The number of modifiers that a walk finds, and what they make of the value. -/
def forecast (evaluator : Evaluator) (resolve : Resolve) (phase : Phase) (doc : Document) :
    Option (Nat × Option Value) :=
  ((evaluator.walkWith resolve phase doc).value.map fun pending =>
    (pending.len, Modifier.effectEach? pending.inOrder doc.toValue)).toOption

/-- What is forecast of a walk is what it finds. -/
theorem exists_walk_of_forecast {count : Nat} {made : Option Value}
    (hf : evaluator.forecast resolve phase doc = some (count, made)) :
    ∃ pending, (evaluator.walkWith resolve phase doc).value = .ok pending ∧ pending.len = count ∧
      Modifier.effectEach? pending.inOrder doc.toValue = made := by
  rw [forecast] at hf
  cases hw : (evaluator.walkWith resolve phase doc).value with
  | error e =>
    rw [hw] at hf
    cases hf
  | ok pending =>
    rw [hw] at hf
    obtain ⟨hlen, hmade⟩ := Prod.mk.inj (Option.some.inj hf)
    exact ⟨pending, rfl, hlen, hmade⟩

/-- Phases that find nothing take one walk each. -/
theorem Runs.after_idle (hmay : evaluator.MayWalk 0) {before rest : List Phase}
    (hidle : ∀ p ∈ before, ∃ pending, (evaluator.walkWith resolve p doc).value = .ok pending ∧
      pending.isEmpty = true)
    {walks : List (Phase × Nat)} {reports : List PhaseReport}
    (hr : Runs evaluator resolve rest doc walks (.ok reports, doc')) :
    Runs evaluator resolve (before ++ rest) doc (before.map (fun p => (p, 1)) ++ walks)
      (.ok (before.map (fun p => ⟨p, 1, 0⟩) ++ reports), doc') := by
  induction before with
  | nil => exact hr
  | cons p more ih =>
    obtain ⟨pending, hw, he⟩ := hidle p List.mem_cons_self
    have hmore := ih fun q hq => hidle q (List.mem_cons_of_mem p hq)
    exact .next (.rested hmay hw he) hmore

/-- When one phase alone finds macros and they make a value that calls none, the run takes two walks
in that phase and one in each other, and leaves the value. -/
theorem exists_run_of_forecast (phase : Phase) (before after : List Phase) (count : Nat)
    (v : Value) (hcount : 0 < count) (h : doc.InShape) (hev : evaluator.Rewriting resolve)
    (hall : Phase.all = before ++ phase :: after) (hmay : evaluator.MayWalk 1)
    (hkind : evaluator.kindCheck = false) (hlenient : evaluator.settings.strict = false)
    (hbefore : ∀ p ∈ before, evaluator.forecast resolve p doc = some (0, some doc.toValue))
    (hphase : evaluator.forecast resolve phase doc = some (count, some v))
    (hidle : v.EveryKey evaluator.registry.Idle) (whole : Bool) :
    ∃ doc', doc'.toValue = v ∧ (evaluator.runWith resolve whole doc).value =
      (.ok ⟨before.map (fun p => ⟨p, 1, 0⟩) ++
        ⟨phase, 2, count⟩ :: after.map (fun p => ⟨p, 1, 0⟩)⟩, doc') := by
  obtain ⟨pending, hw, hlen, hmade⟩ := exists_walk_of_forecast hphase
  obtain ⟨doc', happlied, hshape, hvalue⟩ := Pending.exists_applyAll_of_effect h
    (collected_of_walk h hev hw).ordered hmade
  have hsome : pending.isEmpty = false := by
    rw [Pending.isEmpty, List.isEmpty_eq_false_iff, ← List.length_pos_iff]
    exact Nat.lt_of_lt_of_eq hcount hlen.symm
  have hmay' : evaluator.MayWalk 0 := fun limit hl => Nat.lt_of_succ_lt (hmay limit hl)
  have hnothing : ∀ p ∈ before, ∃ pending,
      (evaluator.walkWith resolve p doc).value = .ok pending ∧ pending.isEmpty = true := by
    intro p hp
    obtain ⟨pending, hw, hlen, -⟩ := exists_walk_of_forecast (hbefore p hp)
    exact ⟨pending, hw, List.isEmpty_iff_length_eq_zero.mpr hlen⟩
  -- What the modifiers leave calls no macro, so every later walk finds nothing.
  have hrest : ∀ p, (evaluator.walkWith resolve p doc').value = .ok {} := by
    refine value_walkWith_idle hshape (hvalue ▸ hidle) ?_ ?_ resolve
    · rw [value_checkKind, hkind]
      rfl
    · have hclean : doc'.toValue.EveryKey evaluator.registry.Idle := hvalue ▸ hidle
      have hallowed : ∀ key, ¬ evaluator.Forbids key :=
        fun _ hbad => Bool.false_ne_true (hlenient.symm.trans hbad.1)
      exact hclean.mono (fun key _ => hallowed key) hshape.ordered
  -- The phases before find nothing, this one finds its macros once, and those after find nothing.
  have hruns := Runs.after_idle hmay' hnothing
    (.next (.again hmay' hw hsome happlied (.rested hmay (hrest phase) rfl))
      (runs_idle hmay' hrest after))
  rw [← hall] at hruns
  have hwalks : ∀ entry ∈ before.map (fun p => (p, 1)) ++
      (phase, 2) :: after.map (fun p => (p, 1)), entry.2 ≤ 2 := by
    intro entry he
    rcases List.mem_append.mp he with he | he
    · obtain ⟨p, -, rfl⟩ := List.mem_map.mp he
      exact Nat.le_succ 1
    · rcases List.mem_cons.mp he with rfl | he
      · exact Nat.le_refl 2
      · obtain ⟨p, -, rfl⟩ := List.mem_map.mp he
        exact Nat.le_succ 1
  refine ⟨doc', hvalue, ?_⟩
  rw [value_runWith_of_rewriting h hev, value_runPhases_of_runs hruns hwalks, hlen,
    Nat.zero_add count]
  rfl

end Expansion.Evaluator
