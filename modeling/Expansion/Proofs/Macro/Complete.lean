import Expansion.Proofs.Macro.Walks

/-!
  Expansion is complete, and a second run does nothing.

  What the built-in macros look up is expanded apart before it is used, so it calls no macro
  (`expands_resolve`, by induction on the levels).  Hence their modifiers rewrite wrappers with
  values that call none, and a run that succeeds leaves no key that calls a macro in any phase
  (`clean_of_runWith`).  In such a document every walk finds nothing, or stops at a key of the
  namespace under strict settings (`value_walkWith_idle`); the last walk of the run did not, so a
  second run takes one walk in each phase and changes nothing.

  The second run may start from another document of the same value, since all that a walk asks of a
  document is told by its value (`kindFault?_congr`).
-/

namespace Expansion.Evaluator

/-- The evaluator of the built-in macros of a namespace. -/
def builtin (space : String) (attributes : Attributes) (settings : Settings) (kindCheck : Bool) :
    Evaluator :=
  ⟨Registry.builtin space attributes, settings, kindCheck⟩

/-- The evaluator that settings and attributes make, without the notes. -/
theorem value_withBuiltins (settings : Settings) (attributes : Attributes) :
    (withBuiltins settings attributes).value = builtin settings.space attributes settings true := by
  unfold withBuiltins
  rw [Logged.value_bind, Logged.value_pure, Registry.value_withBuiltins, builtin]

variable {evaluator : Evaluator} {resolve : Resolve} {phase : Phase} {doc doc' : Document}

/-- A run is that of its phases; a whole document is checked for what is left, under strict
settings. -/
theorem value_runWith (evaluator : Evaluator) (resolve : Resolve) (whole : Bool) (doc : Document) :
    (evaluator.runWith resolve whole doc).value =
      match (evaluator.runPhases resolve Phase.all doc).value with
      | (.error e, doc') => (.error e, doc')
      | (.ok reports, doc') =>
        if evaluator.settings.strict && whole then
          ((evaluator.checkResidue doc').value.map fun _ => ⟨reports⟩, doc')
        else (.ok ⟨reports⟩, doc') := by
  rw [runWith, Edit.value_note_bind, Edit.value_bind]
  match (evaluator.runPhases resolve Phase.all doc).value with
  | (.error e, doc') => rfl
  | (.ok reports, doc') =>
    simp only
    cases evaluator.settings.strict && whole with
    | false => rfl
    | true =>
      simp only [if_true, Edit.value_bind, Edit.value_current, Edit.value_run]
      cases (evaluator.checkResidue doc').value <;> rfl

/-- In a run that succeeds the phases have. -/
theorem runPhases_of_runWith {whole : Bool} {report : Report}
    (h : (evaluator.runWith resolve whole doc).value = (.ok report, doc')) :
    ∃ reports, (evaluator.runPhases resolve Phase.all doc).value = (.ok reports, doc') := by
  rw [value_runWith] at h
  match hp : (evaluator.runPhases resolve Phase.all doc).value with
  | (.error e, d) =>
    rw [hp] at h
    cases h
  | (.ok reports, d) =>
    rw [hp] at h
    simp only at h
    split at h
    · obtain ⟨-, rfl⟩ := Prod.mk.inj h
      exact ⟨reports, rfl⟩
    · obtain ⟨-, rfl⟩ := Prod.mk.inj h
      exact ⟨reports, rfl⟩

/-- In no phase no key calls a macro. -/
theorem not_occurs_calls_nil (evaluator : Evaluator) (v : Value) (path : Path) :
    ¬ v.Occurs (evaluator.registry.Calls []) path := by
  rintro ⟨before, name, -, ⟨p, hp, -⟩, -⟩
  cases hp

/-- Phases that have run leave no key that calls a macro, and their last walk found nothing.  This
is what the relation of runs says, for the run that the evaluator makes. -/
theorem clean_of_runPhases (h : doc.InShape) (hev : evaluator.Rewriting resolve)
    {reports : List PhaseReport}
    (hp : (evaluator.runPhases resolve Phase.all doc).value = (.ok reports, doc')) :
    doc'.InShape ∧ doc'.toValue.EveryKey evaluator.registry.Idle ∧
      ∃ phase pending, (evaluator.walkWith resolve phase doc').value = .ok pending := by
  obtain ⟨walks, out, hwalks, hruns⟩ := exists_runs h hev
    (not_occurs_calls_nil evaluator doc.toValue) Phase.all
  have hout : out = (.ok reports, doc') := (value_runPhases_of_runs hruns hwalks).symm.trans hp
  obtain ⟨hshape, hclean, hlast⟩ := hruns.clean hout h hev
    (not_occurs_calls_nil evaluator doc.toValue)
  obtain ⟨phase, pending, hw, -⟩ := hlast (by decide)
  refine ⟨hshape, (Value.everyKey_iff hshape.ordered).mpr fun before name hs => ?_, phase, pending,
    hw⟩
  rw [Registry.idle_iff_not_calls]
  rintro ⟨p, -, hcalls⟩
  have hmem : p ∈ Phase.all.reverse ++ [] := by simp [Phase.mem_all]
  exact hclean (before ++ [.field name]) ⟨before, name, rfl, ⟨p, hmem, hcalls⟩, hs⟩

/-- A run that succeeds leaves no key that calls a macro, and its last walk found nothing. -/
theorem clean_of_runWith (h : doc.InShape) (hev : evaluator.Rewriting resolve) {whole : Bool}
    {report : Report} (hr : (evaluator.runWith resolve whole doc).value = (.ok report, doc')) :
    doc'.InShape ∧ doc'.toValue.EveryKey evaluator.registry.Idle ∧
      ∃ phase pending, (evaluator.walkWith resolve phase doc').value = .ok pending := by
  obtain ⟨reports, hp⟩ := runPhases_of_runWith hr
  exact clean_of_runPhases h hev hp

/-! ## Expansion apart -/

/-- The check of the kind is no macro. -/
theorem Rewriting.withoutKindCheck (h : evaluator.Rewriting resolve) :
    evaluator.withoutKindCheck.Rewriting resolve := h

/-- The built-in macros rewrite their wrappers when values are expanded apart to ones without macro
keys. -/
theorem rewriting_builtin {space : String} {attributes : Attributes} {settings : Settings}
    {kindCheck : Bool} (ha : attributes.Ordered)
    (hr : Macro.Expands (builtin space attributes settings kindCheck).registry.Idle resolve) :
    (builtin space attributes settings kindCheck).Rewriting resolve := by
  intro phase key invocation factory hl doc branch w hp m hm
  obtain ⟨r, hmem, hdefinition, rfl, -⟩ :=
    (Registry.consistsOf_builtin space attributes).mem_of_lookup hl
  obtain ⟨hpath, hmakes⟩ := Macro.makes_of_builtin hp hmem hdefinition hm
  exact ⟨hpath, w, key, hpath.trans hp, hmakes.rewrite ha hr⟩

/-- Values are expanded apart without a check of the kind, whether or not the document is
checked: the runs apart are those of the evaluator without the check. -/
theorem resolve_withoutKindCheck (evaluator : Evaluator) (levels : Nat) :
    evaluator.withoutKindCheck.resolve levels = evaluator.resolve levels := by
  induction levels with
  | zero => rfl
  | succ levels ih =>
    funext v
    rw [resolve, resolve, ih]
    rfl

/-- Without a level left a value is not expanded. -/
theorem value_resolve_zero (evaluator : Evaluator) (v : Value) :
    (evaluator.resolve 0 v).value
      = .error (.lookupDepthExceeded evaluator.settings.maxLookupDepth) := rfl

/-- A value is expanded by a run over it as a document, with one level less for what is looked up
there. -/
theorem value_resolve_succ (evaluator : Evaluator) (levels : Nat) (v : Value) :
    (evaluator.resolve (levels + 1) v).value =
      let (result, doc) := (evaluator.withoutKindCheck.runWith (evaluator.resolve levels) false
        (Document.ofValue v)).value
      result.map fun _ => doc.toValue := rfl

/-- Values that are expanded apart call no macro, at any level.  By induction on the levels: the
macros of a run rewrite their wrappers with what is expanded one level below, so they leave no key.
-/
theorem expands_resolve {space : String} {attributes : Attributes} {settings : Settings}
    {kindCheck : Bool} (ha : attributes.Ordered) (levels : Nat) :
    Macro.Expands (builtin space attributes settings kindCheck).registry.Idle
      ((builtin space attributes settings kindCheck).resolve levels) := by
  induction levels with
  | zero =>
    intro v x _ hx
    rw [value_resolve_zero] at hx
    contradiction
  | succ levels ih =>
    intro v x hv hx
    rw [value_resolve_succ] at hx
    match hrun : ((builtin space attributes settings kindCheck).withoutKindCheck.runWith
      ((builtin space attributes settings kindCheck).resolve levels) false
      (Document.ofValue v)).value with
    | (.error e, d) =>
      rw [hrun] at hx
      cases hx
    | (.ok report, d) =>
      rw [hrun] at hx
      obtain rfl : d.toValue = x := Except.ok.inj hx
      -- What was expanded one level deeper calls no macro, so this run rewrites with such values.
      have hclean := clean_of_runWith ⟨_, Shape.ofValue hv⟩
        (rewriting_builtin ha ih).withoutKindCheck hrun
      exact ⟨hclean.1.ordered, hclean.2.1⟩

/-- The built-in macros rewrite their wrappers, with the values expanded apart at any level. -/
theorem rewriting_resolve {space : String} {attributes : Attributes} {settings : Settings}
    {kindCheck : Bool} (ha : attributes.Ordered) (levels : Nat) :
    (builtin space attributes settings kindCheck).Rewriting
      ((builtin space attributes settings kindCheck).resolve levels) :=
  rewriting_builtin ha (expands_resolve ha levels)

/-! ## Documents without macro keys -/

/-- Strict settings forbid a name of the namespace. -/
def Forbids (evaluator : Evaluator) (key : String) : Prop :=
  evaluator.settings.strict = true ∧ evaluator.registry.vocabulary.inSpace key = true

/-- At a key that calls no macro nothing happens, unless it is forbidden.  The key may be in the
namespace, and then strict settings object to it. -/
theorem value_visit_idle {branch : Branch}
    (hi : ∀ key, branch.fieldName? = some key → evaluator.registry.Idle key) (pending : Pending) :
    (evaluator.visit resolve phase doc pending branch).value = .ok pending ∨
      ∃ key, branch.fieldName? = some key ∧ evaluator.Forbids key ∧
        (evaluator.visit resolve phase doc pending branch).value
          = .error (.unknownMacro branch.text key) := by
  rw [value_visit]
  cases hk : branch.fieldName? with
  | none => exact Or.inl rfl
  | some key =>
    have hidle := hi key hk
    have hphases : (evaluator.registry.phasesFor key).isEmpty = true :=
      Registry.phasesFor_isEmpty_iff.mpr hidle
    simp only [hidle phase, value_passOver, hphases, Bool.true_and]
    cases hspace : evaluator.registry.vocabulary.inSpace key with
    | false => exact Or.inl rfl
    | true =>
      cases hstrict : evaluator.settings.strict with
      | false => exact Or.inl rfl
      | true => exact Or.inr ⟨key, rfl, ⟨hstrict, hspace⟩, rfl⟩

/-- Visits that change nothing leave what was given. -/
theorem visitAll_eq_ok {σ ε : Type} {visit : Visit σ ε} {branches : List Branch} {state : σ}
    (h : ∀ branch ∈ branches, (visit state branch).value = .ok state) :
    visitAll visit branches state = .ok state := by
  induction branches with
  | nil => rfl
  | cons branch rest ih =>
    rw [visitAll, h branch List.mem_cons_self]
    exact ih fun b hb => h b (List.mem_cons_of_mem branch hb)

/-- Visits that go to the end have passed every branch. -/
theorem exists_visit_of_visitAll {σ ε : Type} {visit : Visit σ ε} {branches : List Branch}
    {state last : σ} (h : visitAll visit branches state = .ok last) :
    ∀ branch ∈ branches, ∃ s s', (visit s branch).value = .ok s' := by
  induction branches generalizing state with
  | nil => simp
  | cons branch rest ih =>
    rw [visitAll] at h
    cases hv : (visit state branch).value with
    | error e => simp [hv] at h
    | ok next =>
      rw [hv] at h
      exact List.forall_mem_cons.mpr ⟨⟨state, next, hv⟩, ih h⟩

/-- The names of a document are those of its branches. -/
theorem everyKey_iff_shown (h : doc.InShape) {ok : String → Prop} :
    doc.toValue.EveryKey ok ↔
      ∀ branch ∈ doc.shown, ∀ key, branch.fieldName? = some key → ok key := by
  rw [Value.everyKey_iff h.ordered]
  constructor
  · intro hgood branch hb key hk
    have hocc : doc.toValue.Occurs (fun k => k = key) branch.path :=
      h.occurs_iff.mpr ⟨branch, hb, rfl, key, hk, rfl⟩
    obtain ⟨before, name, hp, rfl, hs⟩ := hocc
    exact hgood before name (hp ▸ hs)
  · intro hall before name hs
    have hocc : doc.toValue.Occurs (fun k => k = name) (before ++ [.field name]) :=
      ⟨before, name, rfl, rfl, hs⟩
    obtain ⟨branch, hb, -, key, hk, rfl⟩ := h.occurs_iff.mp hocc
    exact hall branch hb key hk

/-- In a document without macro keys, a walk finds nothing when the kind is told and no name is
forbidden. -/
theorem value_walkWith_idle (h : doc.InShape)
    (hi : doc.toValue.EveryKey evaluator.registry.Idle)
    (hkind : (evaluator.checkKind doc).value = .ok ())
    (hf : doc.toValue.EveryKey fun key => ¬ evaluator.Forbids key) (resolve : Resolve)
    (phase : Phase) : (evaluator.walkWith resolve phase doc).value = .ok {} := by
  rw [value_walkWith evaluator resolve phase h, hkind]
  refine visitAll_eq_ok fun branch hb => ?_
  rcases value_visit_idle ((everyKey_iff_shown h).mp hi branch hb) {} with hv | ⟨key, hk, hbad, -⟩
  · exact hv
  · exact absurd hbad ((everyKey_iff_shown h).mp hf branch hb key hk)

/-- A walk that does not stop in a document without macro keys has seen the kind, and no forbidden
name. -/
theorem of_value_walkWith (h : doc.InShape) (hi : doc.toValue.EveryKey evaluator.registry.Idle)
    {pending : Pending} (hw : (evaluator.walkWith resolve phase doc).value = .ok pending) :
    (evaluator.checkKind doc).value = .ok () ∧
      doc.toValue.EveryKey fun key => ¬ evaluator.Forbids key := by
  rw [value_walkWith evaluator resolve phase h] at hw
  cases hkind : (evaluator.checkKind doc).value with
  | error e => simp [hkind, Except.bind] at hw
  | ok u =>
    rw [hkind] at hw
    refine ⟨rfl, (everyKey_iff_shown h).mpr fun branch hb key hk hbad => ?_⟩
    obtain ⟨s, s', hs⟩ := exists_visit_of_visitAll hw branch hb
    rw [value_visit] at hs
    have hidle := (everyKey_iff_shown h).mp hi branch hb key hk
    simp [hk, hidle phase, value_passOver, Registry.phasesFor_isEmpty_iff.mpr hidle, hbad.1,
      hbad.2, Except.map] at hs

/-- Under strict settings a name that is not forbidden lies outside the namespace. -/
theorem outside_of_not_forbids (h : doc.InShape) (hstrict : evaluator.settings.strict = true)
    (hf : doc.toValue.EveryKey fun key => ¬ evaluator.Forbids key) :
    doc.toValue.EveryKey fun key => evaluator.registry.vocabulary.inSpace key = false :=
  hf.mono (fun _ hnot => Bool.eq_false_iff.mpr fun hs => hnot ⟨hstrict, hs⟩) h.ordered

/-- Where no name of the namespace is left, the check of the result finds nothing. -/
theorem value_checkResidue (h : doc.InShape)
    (hf : doc.toValue.EveryKey fun key => evaluator.registry.vocabulary.inSpace key = false) :
    (evaluator.checkResidue doc).value = .ok () := by
  have hnone : (evaluator.residue doc).value = .ok [] := by
    simp only [residue, Logged.value_bind, h.value_walk]
    rw [visitAll_eq_ok fun branch hb => ?_]
    · rfl
    · cases hk : branch.fieldName? with
      | none => rfl
      | some key =>
        have hspace := (everyKey_iff_shown h).mp hf branch hb key hk
        simp [hspace]
  simp only [checkResidue, Logged.value_bind, hnone]
  rfl

/-- The check of the result finds nothing after the phases have run: a name of the namespace that
calls no macro would have stopped their last walk. -/
theorem value_runWith_of_rewriting (h : doc.InShape) (hev : evaluator.Rewriting resolve)
    (whole : Bool) :
    (evaluator.runWith resolve whole doc).value =
      ((evaluator.runPhases resolve Phase.all doc).value.1.map fun reports => ⟨reports⟩,
        (evaluator.runPhases resolve Phase.all doc).value.2) := by
  rw [value_runWith]
  match hp : (evaluator.runPhases resolve Phase.all doc).value with
  | (.error e, d) => rfl
  | (.ok reports, d) =>
    simp only
    split
    · rename_i hstrict
      -- The last walk passed over no name of the namespace: it would have stopped there.
      obtain ⟨hshape, hidle, phase, pending, hw⟩ := clean_of_runPhases h hev hp
      have hforbids := (of_value_walkWith hshape hidle hw).2
      have hspace := outside_of_not_forbids hshape (Bool.and_eq_true_iff.mp hstrict).1 hforbids
      rw [value_checkResidue hshape hspace]
      rfl
    · rfl

/-! ## A second run -/

/-- The report of a run that finds nothing: one walk in each phase. -/
def idleReport : Report := ⟨Phase.all.map fun phase => ⟨phase, 1, 0⟩⟩

/-- Phases without anything to find take one walk each. -/
theorem runs_idle (hmay : evaluator.MayWalk 0)
    (hw : ∀ phase, (evaluator.walkWith resolve phase doc).value = .ok {}) (phases : List Phase) :
    Runs evaluator resolve phases doc (phases.map fun phase => (phase, 1))
      (.ok (phases.map fun phase => ⟨phase, 1, 0⟩), doc) := by
  induction phases with
  | nil => exact .nil
  | cons phase rest ih => exact .next (.rested hmay (hw phase) rfl) ih

/-- A run over a document without macro keys takes one walk in each phase and changes nothing. -/
theorem value_runWith_idle (h : doc.InShape) (hi : doc.toValue.EveryKey evaluator.registry.Idle)
    (hkind : (evaluator.checkKind doc).value = .ok ())
    (hf : doc.toValue.EveryKey fun key => ¬ evaluator.Forbids key) (hmay : evaluator.MayWalk 0)
    (resolve : Resolve) (whole : Bool) :
    (evaluator.runWith resolve whole doc).value = (.ok idleReport, doc) := by
  have hruns := runs_idle hmay (value_walkWith_idle h hi hkind hf resolve) Phase.all
  rw [value_runWith, value_runPhases_of_runs hruns (by simp)]
  simp only
  split
  · rename_i hstrict
    have hspace := outside_of_not_forbids h (Bool.and_eq_true_iff.mp hstrict).1 hf
    rw [value_checkResidue h hspace]
    rfl
  · rfl

/-- A phase that ends well was allowed its first walk. -/
theorem Settles.mayWalk {walks modifiers taken : Nat} {report : PhaseReport}
    (h : Settles evaluator resolve phase walks modifiers doc taken (.ok report, doc')) :
    evaluator.MayWalk walks := by
  cases h with
  | rested hmay => exact hmay
  | again hmay => exact hmay

/-- A run that succeeds has walked. -/
theorem mayWalk_of_runWith (h : doc.InShape) (hev : evaluator.Rewriting resolve) {whole : Bool}
    {report : Report} (hr : (evaluator.runWith resolve whole doc).value = (.ok report, doc')) :
    evaluator.MayWalk 0 := by
  obtain ⟨reports, hp⟩ := runPhases_of_runWith hr
  obtain ⟨walks, out, hwalks, hruns⟩ := exists_runs h hev
    (not_occurs_calls_nil evaluator doc.toValue) Phase.all
  rw [value_runPhases_of_runs hruns hwalks] at hp
  subst hp
  generalize hout : ((.ok reports, doc') : Except MacroError (List PhaseReport) × Document) = out
    at hruns
  cases hruns with
  | stopped => cases hout
  | next hs => exact hs.mayWalk

/-! ## What a document describes depends on its value -/

/-- The field that tells the kind is found by names alone. -/
theorem kindField?_congr {a b : List (String × Node)}
    (h : Node.valueFields a = Node.valueFields b) :
    (kindField? a).map (fun entry => (entry.1, entry.2.value))
      = (kindField? b).map fun entry => (entry.1, entry.2.value) := by
  induction a generalizing b with
  | nil =>
    cases b with
    | nil => rfl
    | cons entry rest => cases h
  | cons entry rest ih =>
    cases b with
    | nil => cases h
    | cons entry' rest' =>
      obtain ⟨name, n⟩ := entry
      obtain ⟨name', n'⟩ := entry'
      obtain ⟨hentry, hrest⟩ := List.cons.inj h
      obtain ⟨rfl, hn⟩ := Prod.mk.inj hentry
      simp only [kindField?]
      split
      · simp [hn]
      · exact ih hrest

/-- Whether a node tells a kind is read off its value. -/
theorem describes_congr {a b : Node} (h : a.value = b.value) : describes a = describes b := by
  cases a with
  | scalar id s =>
    cases b with
    | scalar id' s' =>
      obtain rfl := Value.scalar.inj h
      cases s <;> rfl
    | array id' items => cases h
    | object id' fields => cases h
  | array id items =>
    cases b with
    | scalar id' s' => cases h
    | array id' items' => rfl
    | object id' fields => cases h
  | object id fields =>
    cases b with
    | scalar id' s' => cases h
    | array id' items => cases h
    | object id' fields' =>
      have hlen := congrArg List.length (Value.object.inj h)
      simp only [Node.valueFields_eq_map, List.length_map] at hlen
      cases fields <;> cases fields' <;> simp_all [describes]

/-- Documents of one value tell the same kind.  The slots and their handles make no difference to
the check. -/
theorem kindFault?_congr (h : doc.toValue = doc'.toValue) : kindFault? doc = kindFault? doc' := by
  have hroot : doc.root.value = doc'.root.value := h
  have hkind : doc.root.kind = doc'.root.kind := by
    rw [← Node.kind_value, hroot, Node.kind_value]
  simp only [kindFault?]
  -- The two roots have one value, so they are of one form.
  cases ha : doc.root with
  | scalar id s =>
    cases hb : doc'.root with
    | scalar id' s' => simp only [ha, hb] at hkind ⊢; rw [hkind]
    | array id' items => simp [ha, hb, Node.value] at hroot
    | object id' fields => simp [ha, hb, Node.value] at hroot
  | array id items =>
    cases hb : doc'.root with
    | scalar id' s' => simp [ha, hb, Node.value] at hroot
    | array id' items' => rfl
    | object id' fields => simp [ha, hb, Node.value] at hroot
  | object id fields =>
    cases hb : doc'.root with
    | scalar id' s' => simp [ha, hb, Node.value] at hroot
    | array id' items => simp [ha, hb, Node.value] at hroot
    | object id' fields' =>
      rw [ha, hb] at hroot
      have hfield := kindField?_congr (Value.object.inj hroot)
      simp only
      cases hx : kindField? fields with
      | none =>
        rw [hx] at hfield
        rw [Option.map_eq_none_iff.mp hfield.symm]
      | some entry =>
        rw [hx] at hfield
        obtain ⟨entry', hy, he⟩ := Option.map_eq_some_iff.mp hfield.symm
        obtain ⟨hname, hvalue⟩ := Prod.mk.inj he
        rw [hy]
        simp only [hname, describes_congr hvalue]

/-! ## Runs of the built-in macros -/

/-- When a run with the built-in macros succeeds, no field name at any depth of the result calls a
macro in any phase, and a second run, over the same document or another one of that value, succeeds
with one walk and no modifier in each phase and leaves the document alone. -/
theorem run_builtin_complete {space : String} {attributes : Attributes} {settings : Settings}
    {kindCheck : Bool} (ha : attributes.Ordered) {report : Report} (hr : doc.Reachable)
    (hrun : ((builtin space attributes settings kindCheck).run doc).value = (.ok report, doc')) :
    (doc'.toValue.EveryKey fun key =>
      ∀ phase, (builtin space attributes settings kindCheck).registry.lookup phase key = none) ∧
    ((builtin space attributes settings kindCheck).run doc').value = (.ok idleReport, doc') ∧
    ∀ again : Document, again.Reachable → again.toValue = doc'.toValue →
      ((builtin space attributes settings kindCheck).run again).value
        = (.ok idleReport, again) := by
  have hev : (builtin space attributes settings kindCheck).Rewriting _ :=
    rewriting_builtin ha (expands_resolve ha settings.maxLookupDepth)
  obtain ⟨hshape, hidle, phase, pending, hw⟩ := clean_of_runWith hr.inShape hev hrun
  -- The last walk succeeded on the result, so the kind is told and no name is forbidden.
  have hmay := mayWalk_of_runWith hr.inShape hev hrun
  obtain ⟨hkind, hforbids⟩ := of_value_walkWith hshape hidle hw
  refine ⟨hidle, value_runWith_idle hshape hidle hkind hforbids hmay _ true, ?_⟩
  intro again hagain hvalue
  refine value_runWith_idle hagain.inShape (hvalue ▸ hidle) ?_ (hvalue ▸ hforbids) hmay _ true
  rw [value_checkKind, kindFault?_congr hvalue, ← value_checkKind]
  exact hkind

/-- A run that removes the wrapper of its only macro key. -/
theorem run_builtin_complete_of_delete :
    let evaluator := builtin "k" [] { strict := true, maxWalks := some 2 } true
    let doc := Document.ofValue (.object
      [("kind", .string "Pod"), ("spec", .object [("k.Null.Delete", .string "x")])])
    ∃ report doc', (evaluator.run doc).value = (.ok report, doc') ∧
      doc'.toValue = .object [("kind", .string "Pod")] ∧
      (doc'.toValue.EveryKey fun key => ∀ phase, evaluator.registry.lookup phase key = none) ∧
      (evaluator.run doc').value = (.ok idleReport, doc') := by
  intro evaluator doc
  have hattributes : Attributes.Ordered [] := fun _ he => nomatch he
  have hspec : (Value.object [("k.Null.Delete", .string "x")]).Ordered :=
    ⟨List.pairwise_singleton _ _, trivial, trivial⟩
  have ho : (Value.object
      [("kind", .string "Pod"), ("spec", .object [("k.Null.Delete", .string "x")])]).Ordered :=
    ⟨List.pairwise_pair.mpr (by decide), trivial, hspec, trivial⟩
  have hplain : (Value.object [("kind", .string "Pod")]).Ordered :=
    ⟨List.pairwise_singleton _ _, trivial, trivial⟩
  have hreach : doc.Reachable := .ofValue ho
  have hrewriting : evaluator.Rewriting evaluator.resolveFully :=
    rewriting_builtin hattributes (expands_resolve hattributes _)
  have hmay : ∀ walks < 2, evaluator.MayWalk walks := by
    intro walks hlt limit hlimit
    obtain rfl := Option.some.inj hlimit
    exact hlt
  -- The first walk finds one modifier, which removes the wrapper.
  have hwalk : ((evaluator.walkWith evaluator.resolveFully .directives doc).value.map
      fun pending => pending.modifiers.map fun entry =>
        (entry.2.path, entry.2.instructions.map Instruction.name)).toOption
      = some [([.field "spec", .field "k.Null.Delete"], ["delete"])] := by decide +kernel
  cases hw : (evaluator.walkWith evaluator.resolveFully .directives doc).value with
  | error e => simp [hw, Except.map, Except.toOption] at hwalk
  | ok pending =>
    rw [hw] at hwalk
    obtain ⟨entry, hentry, hmodifier⟩ := List.map_eq_singleton_iff.mp (Option.some.inj hwalk)
    obtain ⟨hpath, hname⟩ := Prod.mk.inj hmodifier
    have hinstructions : entry.2.instructions = [.delete [.field "spec"]] := by
      have hc := collected_of_walk hreach.inShape hrewriting hw
      obtain ⟨w, name, hp, hr⟩ := hc.rewrites entry.2 (by simp [Pending.all, hentry])
      have hkey : [Key.field "spec"] ++ [Key.field "k.Null.Delete"] = w ++ [.field name] :=
        hpath.symm.trans hp
      obtain ⟨rfl, -⟩ := List.append_inj' hkey rfl
      exact hr.eq_delete hname
    -- The wrapper is there, so it is removed, and what is left calls no macro.
    have hremoved : doc.toValue.remove? [.field "spec"]
        = some (.object [("kind", .string "Pod")]) := by
      rw [Document.toValue_ofValue ho]
      rfl
    obtain ⟨v, doc', hd, hshape, hvalue⟩ := hreach.inShape.exists_remove hremoved
    have happlied : (pending.applyAll doc).value = (.ok 1, doc') := by
      have hone : (entry.2.apply doc).value = (.ok (), doc') := by
        rw [Modifier.apply, hinstructions, Modifier.value_applyInstructions_cons,
          Instruction.value_apply_delete, hd]
        rfl
      rw [Pending.applyAll, Pending.inOrder_of_eq_singleton hentry, Edit.value_bind,
        Modifier.applyEach, Edit.value_bind, hone, Pending.len, hentry]
      rfl
    have hidlewalk : ∀ phase,
        (evaluator.walkWith evaluator.resolveFully phase doc').value = .ok {} := by
      refine value_walkWith_idle hshape ?_ ?_ ?_ evaluator.resolveFully
      · rw [hvalue]
        refine ⟨fun phase => Option.isNone_iff_eq_none.mp ?_, trivial, trivial⟩
        cases phase <;> decide +kernel
      · have hfault : kindFault? doc' = none := by
          rw [kindFault?_congr (hvalue.trans (Document.toValue_ofValue hplain).symm)]
          decide +kernel
        rw [value_checkKind, hfault]
        simp
      · rw [hvalue]
        have hspace : evaluator.registry.vocabulary.inSpace "kind" = false := by decide +kernel
        exact ⟨fun hbad => Bool.false_ne_true (hspace.symm.trans hbad.2), trivial, trivial⟩
    have hruns : Runs evaluator evaluator.resolveFully Phase.all doc _ (.ok _, doc') :=
      .next (.again (hmay 0 (by decide)) hw (by simp [Pending.isEmpty, hentry]) happlied
        (.rested (hmay 1 (by decide)) (hidlewalk _) rfl))
        (runs_idle (hmay 0 (by decide)) hidlewalk [.scalars, .composites, .encoding])
    have hrun := value_runWith_of_rewriting hreach.inShape hrewriting true
    rw [value_runPhases_of_runs hruns (by simp)] at hrun
    obtain ⟨hclean, hagain, -⟩ := run_builtin_complete hattributes hreach hrun
    exact ⟨_, doc', hrun, hvalue, hclean, hagain⟩

end Expansion.Evaluator
