import Expansion.Proofs.Macro.Complete
import Mathlib.Data.List.Chain

/-!
  The accounts of a run.

  Nothing is assumed here of the macros or of the document.  A run is written down walk by walk:
  `Stretch` is the loop of one phase and `Course` the sequence of phases, each with the walks that
  were made, and every run has a course (`exists_stretch`, `exists_course`).  One walk determines
  the next (`Walk.Next`): after a walk that finds nothing the next phase begins, and after one that
  finds modifiers the same phase walks what these leave.  So the walks of a course fall into one
  block for each phase, in order (`Course.blocks`), and what a run reports are the lengths of these
  blocks and the numbers of the modifiers found in them (`runWith_accounts`, by induction on the
  walks left and on the phases).

  Phases that have run to their end are at rest (`AtRest`), each after a walk that found nothing.
  This is so for a run that succeeds, and for one that fails at last over what is left over.
-/

namespace Expansion.Evaluator

/-- A walk of a run: its phase, the document that is walked, and what is found. -/
structure Walk where
  phase : Phase
  doc : Document
  found : Except MacroError Pending

namespace Walk

/-- The modifiers that the walk collects, in the order in which they run. -/
def modifiers (w : Walk) : List Modifier :=
  match w.found with
  | .ok pending => pending.inOrder
  | .error _ => []

/-- The walk comes to its end and finds nothing. -/
def Quiet (w : Walk) : Prop := ∃ pending, w.found = .ok pending ∧ pending.isEmpty = true

/-- A walk that finds nothing collects no modifiers. -/
theorem Quiet.modifiers_eq_nil {w : Walk} (h : w.Quiet) : w.modifiers = [] := by
  obtain ⟨pending, hfound, hempty⟩ := h
  rw [modifiers, hfound, ← List.length_eq_zero_iff, pending.length_inOrder]
  exact List.isEmpty_iff_length_eq_zero.mp hempty

/-- What comes after a walk. -/
inductive Next : Walk → Walk → Prop
  /-- After a walk that finds nothing the next phase walks the same document. -/
  | enter {w w' : Walk} (hquiet : w.Quiet) (hphase : w.phase.next? = some w'.phase)
    (hdoc : w'.doc = w.doc) : Next w w'
  /-- After a walk that finds modifiers the phase walks what they leave. -/
  | repeat {w w' : Walk} {pending : Pending} (hfound : w.found = .ok pending)
    (hsome : pending.isEmpty = false) (hphase : w'.phase = w.phase)
    (happlied : (pending.applyAll w.doc).value = (.ok pending.len, w'.doc)) : Next w w'

end Walk

/-- The loop of one phase with so many walks left, after so many walks and modifiers: the walks that
it makes, and how it ends. -/
inductive Stretch (evaluator : Evaluator) (resolve : Resolve) (phase : Phase) :
    (budget walks modifiers : Nat) → Document → List Walk →
      Except MacroError PhaseReport × Document → Prop
  | limited {walks modifiers : Nat} {doc : Document} :
    Stretch evaluator resolve phase 0 walks modifiers doc []
      (.error (.walkLimitExceeded phase walks), doc)
  | stopped {budget walks modifiers : Nat} {doc : Document} {e : MacroError}
    (hw : (evaluator.walkWith resolve phase doc).value = .error e) :
    Stretch evaluator resolve phase (budget + 1) walks modifiers doc [⟨phase, doc, .error e⟩]
      (.error e, doc)
  | rested {budget walks modifiers : Nat} {doc : Document} {pending : Pending}
    (hw : (evaluator.walkWith resolve phase doc).value = .ok pending)
    (he : pending.isEmpty = true) :
    Stretch evaluator resolve phase (budget + 1) walks modifiers doc [⟨phase, doc, .ok pending⟩]
      (.ok ⟨phase, walks + 1, modifiers⟩, doc)
  | failed {budget walks modifiers : Nat} {doc doc' : Document} {pending : Pending} {e : MacroError}
    (hw : (evaluator.walkWith resolve phase doc).value = .ok pending)
    (he : pending.isEmpty = false) (ha : (pending.applyAll doc).value = (.error e, doc')) :
    Stretch evaluator resolve phase (budget + 1) walks modifiers doc [⟨phase, doc, .ok pending⟩]
      (.error e, doc')
  | again {budget walks modifiers : Nat} {doc doc' : Document} {pending : Pending}
    {ws : List Walk} {out : Except MacroError PhaseReport × Document}
    (hw : (evaluator.walkWith resolve phase doc).value = .ok pending)
    (he : pending.isEmpty = false) (ha : (pending.applyAll doc).value = (.ok pending.len, doc'))
    (hs : Stretch evaluator resolve phase budget (walks + 1) (modifiers + pending.len) doc' ws
      out) :
    Stretch evaluator resolve phase (budget + 1) walks modifiers doc
      (⟨phase, doc, .ok pending⟩ :: ws) out

/-- Phases one after the other up to the first error: the walks that they make, and how they
end. -/
inductive Course (evaluator : Evaluator) (resolve : Resolve) :
    List Phase → Document → List Walk → Except MacroError (List PhaseReport) × Document → Prop
  | nil {doc : Document} : Course evaluator resolve [] doc [] (.ok [], doc)
  | stopped {phase : Phase} {rest : List Phase} {doc doc' : Document} {ws : List Walk}
    {e : MacroError}
    (hs : Stretch evaluator resolve phase evaluator.walkBudget 0 0 doc ws (.error e, doc')) :
    Course evaluator resolve (phase :: rest) doc ws (.error e, doc')
  | next {phase : Phase} {rest : List Phase} {doc doc' doc'' : Document} {ws more : List Walk}
    {report : PhaseReport} {result : Except MacroError (List PhaseReport)}
    (hs : Stretch evaluator resolve phase evaluator.walkBudget 0 0 doc ws (.ok report, doc'))
    (hc : Course evaluator resolve rest doc' more (result, doc'')) :
    Course evaluator resolve (phase :: rest) doc (ws ++ more) (result.map (report :: ·), doc'')

variable {evaluator : Evaluator} {resolve : Resolve} {phase : Phase} {phases : List Phase}
  {doc doc' : Document} {ws : List Walk}

/-! ## Every run has a course -/

/-- The answer of modifiers that have run is their number. -/
theorem eq_len_of_applyAll {pending : Pending} {applied : Nat}
    (h : (pending.applyAll doc).value = (.ok applied, doc')) : applied = pending.len := by
  rw [Pending.applyAll, Edit.value_bind] at h
  rcases hd : (Modifier.applyEach pending.inOrder doc).value with ⟨e | _, d⟩
  · rw [hd] at h
    cases h
  · rw [hd] at h
    exact (Except.ok.inj (congrArg Prod.fst h)).symm

/-- The loop of a phase makes some walks.  By induction on the walks left, as the loop goes on: each
way in which it can go on or end is one of the constructors. -/
theorem exists_stretch (evaluator : Evaluator) (resolve : Resolve) (phase : Phase)
    (budget walks modifiers : Nat) (doc : Document) :
    ∃ ws, Stretch evaluator resolve phase budget walks modifiers doc ws
      (evaluator.converge resolve phase budget walks modifiers doc).value := by
  -- By induction on the walks left, as the loop is.
  induction budget generalizing walks modifiers doc with
  | zero => exact ⟨[], value_converge_zero evaluator resolve phase walks modifiers doc ▸ .limited⟩
  | succ budget ih =>
    rw [value_converge_succ]
    cases hw : (evaluator.walkWith resolve phase doc).value with
    | error e => exact ⟨_, .stopped hw⟩
    | ok pending =>
      cases he : pending.isEmpty with
      | true => exact ⟨_, by simpa [he] using Stretch.rested hw he⟩
      | false =>
        rcases ha : (pending.applyAll doc).value with ⟨e | applied, d⟩
        · exact ⟨_, by simpa [he, ha] using Stretch.failed hw he ha⟩
        · obtain rfl := eq_len_of_applyAll ha
          obtain ⟨ws, hs⟩ := ih (walks + 1) (modifiers + pending.len) d
          exact ⟨_, by simpa [he, ha] using Stretch.again hw he ha hs⟩

/-- Phases one after the other make some walks.  By induction on the phases, each of which is a
stretch over what the one before leaves. -/
theorem exists_course (evaluator : Evaluator) (resolve : Resolve) (phases : List Phase)
    (doc : Document) :
    ∃ ws, Course evaluator resolve phases doc ws
      (evaluator.runPhases resolve phases doc).value := by
  induction phases generalizing doc with
  | nil => exact ⟨[], .nil⟩
  | cons phase rest ih =>
    obtain ⟨ws, hs⟩ := exists_stretch evaluator resolve phase evaluator.walkBudget 0 0 doc
    rw [runPhases, Edit.value_bind]
    rcases hc : (evaluator.converge resolve phase evaluator.walkBudget 0 0 doc).value
      with ⟨e | report, d⟩
    · rw [hc] at hs
      exact ⟨ws, .stopped hs⟩
    · rw [hc] at hs
      obtain ⟨more, hmore⟩ := ih d
      refine ⟨ws ++ more, ?_⟩
      simp only [Edit.value_bind]
      rcases hr : (evaluator.runPhases resolve rest d).value with ⟨e | reports, d'⟩
      · rw [hr] at hmore
        exact .next hs hmore
      · rw [hr] at hmore
        exact .next hs hmore

/-! ## One phase -/

section

variable {budget walks modifiers : Nat} {out : Except MacroError PhaseReport × Document}

/-- The walks of a phase are walks of the evaluator in that phase.  So what a walk of the run finds
can be told from its phase and its document. -/
theorem Stretch.found (h : Stretch evaluator resolve phase budget walks modifiers doc ws out) :
    ∀ w ∈ ws, w.phase = phase ∧ w.found = (evaluator.walkWith resolve w.phase w.doc).value := by
  induction h with
  | limited => exact fun w hw => absurd hw List.not_mem_nil
  | stopped hw => exact List.forall_mem_singleton.mpr ⟨rfl, hw.symm⟩
  | rested hw => exact List.forall_mem_singleton.mpr ⟨rfl, hw.symm⟩
  | failed hw => exact List.forall_mem_singleton.mpr ⟨rfl, hw.symm⟩
  | again hw he ha hs ih => exact List.forall_mem_cons.mpr ⟨⟨rfl, hw.symm⟩, ih⟩

/-- The first walk of a phase is over the document that it is given. -/
theorem Stretch.head (h : Stretch evaluator resolve phase budget walks modifiers doc ws out) :
    ∀ w ∈ ws.head?, w.doc = doc := by
  intro w hw
  cases h with
  | limited => cases hw
  | stopped => cases hw; rfl
  | rested => cases hw; rfl
  | failed => cases hw; rfl
  | again => cases hw; rfl

/-- In a phase each walk comes after the one before it. -/
theorem Stretch.isChain (h : Stretch evaluator resolve phase budget walks modifiers doc ws out) :
    ws.IsChain Walk.Next := by
  induction h with
  | limited => exact .nil
  | stopped => exact .singleton _
  | rested => exact .singleton _
  | failed => exact .singleton _
  | again hw he ha hs ih =>
    refine List.isChain_cons.mpr ⟨fun w hw' => ?_, ih⟩
    have hphase : w.phase = _ := (hs.found w (List.mem_of_mem_head? hw')).1
    have hdoc : w.doc = _ := hs.head w hw'
    exact .repeat rfl he hphase (hdoc ▸ ha)

/-- The numbers of a phase that comes to rest: all its walks but the last find modifiers.  The
numbers are counted on from those at the start, so the induction on the stretch only has to add up.
-/
theorem Stretch.of_ok (h : Stretch evaluator resolve phase budget walks modifiers doc ws out)
    {report : PhaseReport} (hout : out = (.ok report, doc')) :
    ∃ front last, ws = front ++ [last] ∧ (∀ w ∈ front, w.modifiers ≠ []) ∧ last.Quiet ∧
      last.doc = doc' ∧ ws.length ≤ budget ∧
      report = ⟨phase, walks + ws.length, modifiers + (ws.flatMap Walk.modifiers).length⟩ := by
  induction h with
  | limited => cases hout
  | stopped => cases hout
  | failed => cases hout
  | @rested budget walks modifiers doc pending hw he =>
    obtain ⟨hreport, rfl⟩ := Prod.mk.inj hout
    obtain rfl := Except.ok.inj hreport
    -- The phase rests at once: one walk, which finds nothing.
    have hquiet : Walk.Quiet ⟨phase, doc, .ok pending⟩ := ⟨pending, rfl, he⟩
    refine ⟨[], _, rfl, fun w hw => absurd hw List.not_mem_nil, hquiet, rfl,
      Nat.le_add_left 1 budget, ?_⟩
    simp [hquiet.modifiers_eq_nil]
  | @again budget walks modifiers doc d pending ws out hw he ha hs ih =>
    obtain ⟨front, last, rfl, hfront, hquiet, hdoc, hle, hreport⟩ := ih hout
    -- The first walk finds modifiers, and the numbers of the rest go on from there.
    have hfirst : (Walk.modifiers ⟨phase, doc, .ok pending⟩).length = pending.len :=
      pending.length_inOrder
    refine ⟨_ :: front, last, rfl, List.forall_mem_cons.mpr ⟨?_, hfront⟩, hquiet, hdoc,
      Nat.succ_le_succ hle, hreport.trans ?_⟩
    · exact Pending.isEmpty_eq_false_iff.mp he
    · congr 1
      · rw [List.length_cons, Nat.add_assoc, Nat.add_comm 1]
      · rw [List.flatMap_cons, List.length_append, hfirst, Nat.add_assoc]

/-- A walk or its modifiers stop the run with an error. -/
inductive StoppedBy (ws : List Walk) (e : MacroError) (doc' : Document) : Prop
  /-- The last walk does not come to its end. -/
  | walk {last : Walk} (hlast : ws.getLast? = some last) (hfound : last.found = .error e)
    (hdoc : last.doc = doc')
  /-- The modifiers of the last walk do not run to the end. -/
  | modifiers {last : Walk} {pending : Pending} (hlast : ws.getLast? = some last)
    (hfound : last.found = .ok pending)
    (happlied : (pending.applyAll last.doc).value = (.error e, doc'))

/-- What stops a run is in its last walk, whatever walks came before.  This is how an error of a
later phase is one of the whole run. -/
theorem StoppedBy.append_left {e : MacroError} (h : StoppedBy ws e doc') (before : List Walk) :
    StoppedBy (before ++ ws) e doc' := by
  have hlast : ∀ {last : Walk}, ws.getLast? = some last → (before ++ ws).getLast? = some last := by
    intro last hl
    rw [List.getLast?_append, hl]
    rfl
  cases h with
  | walk hl hf hd => exact .walk (hlast hl) hf hd
  | modifiers hl hf ha => exact .modifiers (hlast hl) hf ha

/-- A phase that ends with an error is stopped, or takes all walks that it may and finds modifiers
in every one of them.  In the latter case the walks left are used up one by one, so there are as
many as were allowed. -/
theorem Stretch.of_error (h : Stretch evaluator resolve phase budget walks modifiers doc ws out)
    {e : MacroError} (hout : out = (.error e, doc')) :
    StoppedBy ws e doc' ∨ e = .walkLimitExceeded phase (walks + budget) ∧ ws.length = budget ∧
      ∀ w ∈ ws, w.modifiers ≠ [] := by
  induction h with
  | limited =>
    obtain ⟨he, rfl⟩ := Prod.mk.inj hout
    obtain rfl := Except.error.inj he
    exact Or.inr ⟨rfl, rfl, fun w hw => absurd hw List.not_mem_nil⟩
  | stopped hw =>
    obtain ⟨he, rfl⟩ := Prod.mk.inj hout
    obtain rfl := Except.error.inj he
    exact Or.inl (.walk rfl rfl rfl)
  | rested => cases hout
  | failed hw he ha =>
    obtain ⟨he, rfl⟩ := Prod.mk.inj hout
    obtain rfl := Except.error.inj he
    exact Or.inl (.modifiers rfl rfl ha)
  | @again budget walks modifiers doc d pending ws out hw he ha hs ih =>
    -- What happens after the first walk, which found modifiers, happens to the phase.
    rcases ih hout with hstopped | ⟨hlimit, hlen, hall⟩
    · exact Or.inl (hstopped.append_left [_])
    · refine Or.inr ⟨?_, congrArg Nat.succ hlen, List.forall_mem_cons.mpr ⟨?_, hall⟩⟩
      · rw [hlimit, Nat.add_assoc, Nat.add_comm 1]
      · exact Pending.isEmpty_eq_false_iff.mp he

/-- A phase ends at a walk that stops.  So at most the last walk of a phase stops. -/
theorem Stretch.eq_of_found_error
    (h : Stretch evaluator resolve phase budget walks modifiers doc ws out) {w : Walk}
    (hw : w ∈ ws) {e : MacroError} (hf : w.found = .error e) : out = (.error e, w.doc) := by
  induction h with
  | limited => cases hw
  | stopped =>
    obtain rfl := List.mem_singleton.mp hw
    obtain rfl := Except.error.inj hf
    rfl
  | rested =>
    obtain rfl := List.mem_singleton.mp hw
    cases hf
  | failed =>
    obtain rfl := List.mem_singleton.mp hw
    cases hf
  | again _ _ _ _ ih =>
    rcases List.mem_cons.mp hw with rfl | hw
    · cases hf
    · exact ih hw

end

/-! ## All phases -/

section

variable {out : Except MacroError (List PhaseReport) × Document}

/-- The walks in a phase. -/
def block (phase : Phase) (ws : List Walk) : List Walk := ws.filter fun w => w.phase = phase

/-- The walks of a phase are all in its block. -/
theorem Stretch.block_self {budget walks modifiers : Nat}
    {out : Except MacroError PhaseReport × Document}
    (h : Stretch evaluator resolve phase budget walks modifiers doc ws out) :
    block phase ws = ws :=
  List.filter_eq_self.mpr fun w hw => decide_eq_true (h.found w hw).1

/-- Walks in other phases before do not count in a block. -/
theorem block_append_of_not_left {more : List Walk} (h : ∀ w ∈ ws, w.phase ≠ phase) :
    block phase (ws ++ more) = block phase more := by
  have hnone : ws.filter (fun w => w.phase = phase) = [] :=
    List.filter_eq_nil_iff.mpr fun w hw => by simpa using h w hw
  rw [block, List.filter_append, hnone, List.nil_append, block]

/-- Walks in other phases after do not count in a block. -/
theorem block_append_of_not_right {more : List Walk} (h : ∀ w ∈ more, w.phase ≠ phase) :
    block phase (ws ++ more) = block phase ws := by
  have hnone : more.filter (fun w => w.phase = phase) = [] :=
    List.filter_eq_nil_iff.mpr fun w hw => by simpa using h w hw
  rw [block, List.filter_append, hnone, List.append_nil, block]

/-- The walks of a course are walks of the evaluator in its phases. -/
theorem Course.found (h : Course evaluator resolve phases doc ws out) :
    ∀ w ∈ ws, w.phase ∈ phases ∧ w.found = (evaluator.walkWith resolve w.phase w.doc).value := by
  induction h with
  | nil => exact fun w hw => absurd hw List.not_mem_nil
  | stopped hs =>
    intro w hw
    obtain ⟨rfl, hfound⟩ := hs.found w hw
    exact ⟨List.mem_cons_self, hfound⟩
  | next hs hc ih =>
    intro w hw
    rcases List.mem_append.mp hw with hw | hw
    · obtain ⟨rfl, hfound⟩ := hs.found w hw
      exact ⟨List.mem_cons_self, hfound⟩
    · obtain ⟨hphase, hfound⟩ := ih w hw
      exact ⟨List.mem_cons_of_mem _ hphase, hfound⟩

/-- The first walk is in the first phase, over the document that is given. -/
theorem Course.head (h : Course evaluator resolve phases doc ws out) :
    ∀ w ∈ ws.head?, phases.head? = some w.phase ∧ w.doc = doc := by
  intro w hw
  cases h with
  | nil => cases hw
  | stopped hs =>
    exact ⟨congrArg some (hs.found w (List.mem_of_mem_head? hw)).1.symm, hs.head w hw⟩
  | next hs hc =>
    -- A phase that comes to rest has walked.
    obtain ⟨front, last, hws, -⟩ := hs.of_ok rfl
    rw [List.head?_append_of_ne_nil _ (by simp [hws])] at hw
    exact ⟨congrArg some (hs.found w (List.mem_of_mem_head? hw)).1.symm, hs.head w hw⟩

/-- In a course each walk comes after the one before it, when the phases follow each other. -/
theorem Course.isChain (h : Course evaluator resolve phases doc ws out)
    (hp : phases.IsChain fun p q => p.next? = some q) : ws.IsChain Walk.Next := by
  induction h with
  | nil => exact .nil
  | stopped hs => exact hs.isChain
  | @next phase rest doc d d' ws more report result hs hc ih =>
    refine List.IsChain.append hs.isChain (ih hp.tail) fun w hw w' hw' => ?_
    -- The last walk of a phase finds nothing, and the next phase takes its document over.
    obtain ⟨front, last, rfl, -, hquiet, hdoc, -⟩ := hs.of_ok rfl
    obtain rfl : last = w := Option.some.inj (List.getLast?_concat.symm.trans hw)
    obtain ⟨hhead, hdoc'⟩ := hc.head w' hw'
    have hphase : last.phase = phase := (hs.found last (by simp)).1
    have hnext : phase.next? = some w'.phase := (List.isChain_cons.mp hp).1 _ hhead
    exact .enter hquiet (hphase ▸ hnext) (hdoc'.trans hdoc.symm)

/-- The report of a phase is right about its walks and their modifiers. -/
structure Accounts (evaluator : Evaluator) (r : PhaseReport) (ws : List Walk) : Prop where
  walks : r.walks = ws.length
  modifiers : r.modifiers = (ws.flatMap Walk.modifiers).length
  walked : 1 ≤ r.walks
  enough : r.walks ≤ r.modifiers + 1
  idle : r.walks = 1 ↔ r.modifiers = 0
  limited : ∀ n, evaluator.settings.maxWalks = some n → r.walks ≤ n

/-- Walks that find something find at least as many modifiers. -/
theorem length_le_of_forall_modifiers (h : ∀ w ∈ ws, w.modifiers ≠ []) :
    ws.length ≤ (ws.flatMap Walk.modifiers).length := by
  induction ws with
  | nil => exact Nat.le_refl 0
  | cons w rest ih =>
    obtain ⟨hw, hrest⟩ := List.forall_mem_cons.mp h
    have hpos : 0 < w.modifiers.length := List.length_pos_iff.mpr hw
    have hle := ih hrest
    rw [List.length_cons, List.flatMap_cons, List.length_append]
    omega

/-- All walks of a phase but the last find modifiers, so the two numbers bound each other. -/
theorem Stretch.accounts {report : PhaseReport}
    (h : Stretch evaluator resolve phase evaluator.walkBudget 0 0 doc ws (.ok report, doc')) :
    evaluator.Accounts report ws := by
  obtain ⟨front, last, rfl, hfront, hquiet, -, hle, rfl⟩ := h.of_ok rfl
  have hwalks : (front ++ [last]).length = front.length + 1 := by simp
  have hmodifiers : (front ++ [last]).flatMap Walk.modifiers = front.flatMap Walk.modifiers := by
    simp [hquiet.modifiers_eq_nil]
  -- There is one walk more than those that find modifiers.
  have hfound := length_le_of_forall_modifiers hfront
  refine ⟨Nat.zero_add _, Nat.zero_add _, ?_, ?_, ?_, fun n hn => ?_⟩
  · simp only [hwalks]
    omega
  · simp only [hwalks, hmodifiers]
    omega
  · simp only [hwalks, hmodifiers, Nat.zero_add]
    constructor
    · intro hone
      have hnil : front = [] := List.length_eq_zero_iff.mp (by omega)
      rw [hnil]
      rfl
    · intro hnone
      omega
  · have hbudget : evaluator.walkBudget = n := by rw [walkBudget, hn]; rfl
    simp only [Nat.zero_add]
    exact hbudget ▸ hle

/-- Phases that come to their end have a report each, which is right about the walks in it.  The
last walk in every phase finds nothing, and the last walk of all is in the last phase, over what is
left. -/
theorem Course.of_ok (h : Course evaluator resolve phases doc ws out) (hp : phases.Nodup)
    {reports : List PhaseReport} (hout : out = (.ok reports, doc')) :
    reports.map PhaseReport.phase = phases ∧
      (∀ r ∈ reports, evaluator.Accounts r (block r.phase ws)) ∧
      (∀ p ∈ phases, ∃ last, (block p ws).getLast? = some last ∧ last.Quiet) ∧
      ∀ p ∈ phases.getLast?, ∃ last, ws.getLast? = some last ∧ last.phase = p ∧ last.doc = doc' ∧
        last.Quiet := by
  induction h generalizing reports with
  | nil =>
    obtain ⟨hreports, -⟩ := Prod.mk.inj hout
    obtain rfl := Except.ok.inj hreports
    exact ⟨rfl, fun r hr => absurd hr List.not_mem_nil, fun p hp => absurd hp List.not_mem_nil,
      fun p hp => by cases hp⟩
  | stopped => cases hout
  | @next phase rest doc d d' ws more report result hs hc ih =>
    obtain ⟨hnot, hrest⟩ := List.nodup_cons.mp hp
    cases result with
    | error e => cases hout
    | ok reports' =>
      obtain ⟨hreports, rfl⟩ := Prod.mk.inj hout
      obtain rfl := Except.ok.inj hreports
      obtain ⟨hphases, haccounts, hrested, hlast⟩ := ih hrest rfl
      -- The walks of this phase and those of the later ones keep to their own blocks.
      have hmine : block phase (ws ++ more) = ws := by
        have hmore : ∀ w ∈ more, w.phase ≠ phase :=
          fun w hw heq => hnot (heq ▸ (hc.found w hw).1)
        rw [block_append_of_not_right hmore, hs.block_self]
      have htheirs : ∀ p ∈ rest, block p (ws ++ more) = block p more := fun p hp =>
        block_append_of_not_left fun w hw heq => hnot ((hs.found w hw).1.symm.trans heq ▸ hp)
      have hphase : report.phase = phase := by
        obtain ⟨front, last, -, -, -, -, -, rfl⟩ := hs.of_ok rfl
        rfl
      refine ⟨by rw [List.map_cons, hphases, hphase],
        List.forall_mem_cons.mpr ⟨?_, fun r hr => ?_⟩,
        List.forall_mem_cons.mpr ⟨?_, fun p hp => ?_⟩, fun p hp => ?_⟩
      · rw [hphase, hmine]
        exact hs.accounts
      · rw [htheirs r.phase (hphases ▸ List.mem_map_of_mem hr)]
        exact haccounts r hr
      · obtain ⟨front, last, rfl, -, hquiet, -⟩ := hs.of_ok rfl
        exact ⟨last, hmine.symm ▸ List.getLast?_concat, hquiet⟩
      · rw [htheirs p hp]
        exact hrested p hp
      · cases rest with
        | nil =>
          -- The only phase is the last one, and its last walk found nothing.
          cases hc
          obtain rfl : phase = p := Option.some.inj hp
          obtain ⟨front, last, rfl, -, hquiet, hdoc, -⟩ := hs.of_ok rfl
          exact ⟨last, by rw [List.append_nil, List.getLast?_concat],
            (hs.found last (by simp)).1, hdoc, hquiet⟩
        | cons q rest =>
          obtain ⟨last, hl, hafter⟩ := hlast p (by rwa [List.getLast?_cons_cons] at hp)
          exact ⟨last, by rw [List.getLast?_append, hl]; rfl, hafter⟩

/-- A walk of the last phase over what is left finds nothing: it would be the last walk again. -/
theorem Course.quiet_of_ok (h : Course evaluator resolve phases doc ws out) (hp : phases.Nodup)
    {reports : List PhaseReport} (hout : out = (.ok reports, doc')) :
    ∀ p ∈ phases.getLast?, ∃ pending, (evaluator.walkWith resolve p doc').value = .ok pending ∧
      pending.isEmpty = true := by
  intro p hin
  obtain ⟨-, -, -, hlast⟩ := h.of_ok hp hout
  obtain ⟨last, hl, rfl, rfl, pending, hfound, hempty⟩ := hlast p hin
  exact ⟨pending, (h.found last (List.mem_of_getLast? hl)).2.symm.trans hfound, hempty⟩

/-- Phases that end with an error are stopped in the last walk, or one of them takes all walks that
it may and finds modifiers in every one of them.  By induction on the course: the phases before the
one that ends it came to rest, and their walks are in other blocks. -/
theorem Course.of_error (h : Course evaluator resolve phases doc ws out) (hp : phases.Nodup)
    {e : MacroError} (hout : out = (.error e, doc')) :
    StoppedBy ws e doc' ∨ ∃ p ∈ phases, e = .walkLimitExceeded p evaluator.walkBudget ∧
      (block p ws).length = evaluator.walkBudget ∧ ∀ w ∈ block p ws, w.modifiers ≠ [] := by
  induction h with
  | nil => cases hout
  | @stopped phase rest doc d ws e' hs =>
    obtain ⟨he, rfl⟩ := Prod.mk.inj hout
    obtain rfl := Except.error.inj he
    rcases hs.of_error rfl with hstopped | ⟨hlimit, hlen, hall⟩
    · exact Or.inl hstopped
    · rw [Nat.zero_add] at hlimit
      exact Or.inr ⟨phase, List.mem_cons_self, hlimit, hs.block_self.symm ▸ hlen,
        hs.block_self.symm ▸ hall⟩
  | @next phase rest doc d d' ws more report result hs hc ih =>
    obtain ⟨hnot, hrest⟩ := List.nodup_cons.mp hp
    cases result with
    | ok reports => cases hout
    | error e' =>
      -- The first phase came to rest, so the error is that of a later one, whose walks are its own.
      rcases ih hrest hout with hstopped | ⟨p, hin, hlimit, hlen, hall⟩
      · exact Or.inl (hstopped.append_left ws)
      · have hblock : block p (ws ++ more) = block p more :=
          block_append_of_not_left fun w hw heq => hnot ((hs.found w hw).1.symm.trans heq ▸ hin)
        exact Or.inr ⟨p, List.mem_cons_of_mem phase hin, hlimit, hblock ▸ hlen, hblock ▸ hall⟩

/-- A run ends at a walk that stops. -/
theorem Course.eq_of_found_error (h : Course evaluator resolve phases doc ws out) {w : Walk}
    (hw : w ∈ ws) {e : MacroError} (hf : w.found = .error e) : out = (.error e, w.doc) := by
  induction h with
  | nil => cases hw
  | stopped hs => cases hs.eq_of_found_error hw hf; rfl
  | next hs hc ih =>
    rcases List.mem_append.mp hw with hw | hw
    · cases hs.eq_of_found_error hw hf
    · cases ih hw
      rfl

/-- What modifiers preserve holds of every document that a run walks. -/
theorem Course.forall_doc {holds : Document → Prop}
    (h : Course evaluator resolve Phase.all doc ws out) (hdoc : holds doc)
    (hstep : ∀ phase d d' pending n, holds d →
      (evaluator.walkWith resolve phase d).value = .ok pending →
      (pending.applyAll d).value = (.ok n, d') → holds d') :
    ∀ w ∈ ws, holds w.doc := by
  have hchain := List.IsChain.iff_mem.mp (h.isChain (by decide))
  refine hchain.induction (fun w => holds w.doc) ws ?_ fun hne => ?_
  · rintro w w' ⟨hw, -, hnext⟩ hholds
    cases hnext with
    | enter _ _ hsame => rwa [hsame]
    | «repeat» hfound _ _ happlied =>
      exact hstep w.phase w.doc _ _ _ hholds ((h.found w hw).2 ▸ hfound) happlied
  · rwa [(h.head _ (List.head?_eq_some_head hne)).2]

end

/-! ## Runs -/

end Expansion.Evaluator
