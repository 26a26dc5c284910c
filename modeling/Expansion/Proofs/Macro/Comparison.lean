import Expansion.Proofs.Macro.Complete
import Mathlib.Data.List.Nodup

/-!
  Two evaluators compared.

  One evaluator follows another when it walks documents as the other does, except that it may stop
  with an error of a given sort, the extra errors, and when it may take the two walks that a phase
  needs or stops with an extra error there (`Follows`).  The two need not hold the same macros, as
  long as these are called at the same keys (`Registry.SameKeys`) and make the same of them
  (`Alike`).  The results of the two then agree but for extra errors, from the macros called at one
  branch up to whole runs: walks by induction on the branches (`agrees_walkWith`), phases and runs
  by induction on what the first evaluator does (`Settles.follow`, `Runs.follow`), and expansions
  apart by induction on the levels (`agrees_resolve`).

  Agreement is kept up to extra errors (`Agrees`, `EndAlike`), so an extra error that comes up
  anywhere ends the comparison, and everything before it is the same on both sides.
-/

namespace Expansion

/-- Two results agree: they are the same, or the second is an extra error. -/
def Agrees {α : Type} (extra : MacroError → Prop) (r r' : Except MacroError α) : Prop :=
  r' = r ∨ ∃ e, extra e ∧ r' = .error e

/-- Two edits end alike: with the same answer and the same document, or the second ends with an
extra error. -/
def EndAlike {α : Type} (extra : MacroError → Prop) (out out' : Except MacroError α × Document) :
    Prop :=
  out' = out ∨ ∃ e, extra e ∧ out'.1 = .error e

section

variable {α β : Type} {extra : MacroError → Prop}

/-- A result agrees with itself. -/
theorem Agrees.refl (r : Except MacroError α) : Agrees extra r r := Or.inl rfl

/-- What is made of results that agree agrees. -/
theorem Agrees.map {r r' : Except MacroError α} (h : Agrees extra r r') (f : α → β) :
    Agrees extra (r.map f) (r'.map f) := by
  rcases h with rfl | ⟨e, he, rfl⟩
  · exact .refl _
  · exact Or.inr ⟨e, he, rfl⟩

/-- Steps that agree, followed by steps that agree after the same answer. -/
theorem Agrees.bind {r r' : Except MacroError α} (h : Agrees extra r r')
    {f f' : α → Except MacroError β} (hf : ∀ a, r = .ok a → Agrees extra (f a) (f' a)) :
    Agrees extra (r.bind f) (r'.bind f') := by
  rcases h with rfl | ⟨e, he, rfl⟩
  · cases r' with
    | error e => exact .refl _
    | ok a => exact hf a rfl
  · exact Or.inr ⟨e, he, rfl⟩

/-- An edit ends as it does itself. -/
theorem EndAlike.refl (out : Except MacroError α × Document) : EndAlike extra out out := Or.inl rfl

/-- What is made of the answers does not matter. -/
theorem EndAlike.map {out out' : Except MacroError α × Document} (h : EndAlike extra out out')
    (f : α → β) : EndAlike extra (out.1.map f, out.2) (out'.1.map f, out'.2) := by
  rcases h with rfl | ⟨e, he, hout⟩
  · exact .refl _
  · exact Or.inr ⟨e, he, by rw [hout]; rfl⟩

/-- Visits that agree at every branch agree over all branches.  By induction on the branches: after
visits that agree, the same is pending on both sides. -/
theorem agrees_visitAll {σ : Type} {visit visit' : Visit σ MacroError} {branches : List Branch}
    (h : ∀ branch ∈ branches, ∀ state,
      Agrees extra (visit state branch).value (visit' state branch).value) (state : σ) :
    Agrees extra (visitAll visit branches state) (visitAll visit' branches state) := by
  induction branches generalizing state with
  | nil => exact .refl _
  | cons branch rest ih =>
    simp only [visitAll]
    rcases h branch List.mem_cons_self state with heq | ⟨e, he, hv⟩
    · rw [heq]
      cases (visit state branch).value with
      | error e => exact .refl _
      | ok next => exact ih (fun b hb => h b (List.mem_cons_of_mem _ hb)) next
    · rw [hv]
      exact Or.inr ⟨e, he, rfl⟩

end

/-! ## Registries with the same keys -/

namespace Registry

/-- Two registries of one namespace call macros at the same keys, by the same names and with the
same arguments. -/
structure SameKeys (registry other : Registry) : Prop where
  space : other.space = registry.space
  lookup : ∀ phase key,
    (other.lookup phase key).map Prod.fst = (registry.lookup phase key).map Prod.fst

/-- A registry has its own keys. -/
theorem SameKeys.refl (registry : Registry) : registry.SameKeys registry := ⟨rfl, fun _ _ => rfl⟩

variable {registry other : Registry}

/-- A key calls a macro in both registries or in neither. -/
theorem SameKeys.lookup_cases (h : registry.SameKeys other) (phase : Phase) (key : String) :
    (registry.lookup phase key = none ∧ other.lookup phase key = none) ∨
      ∃ invocation factory factory', registry.lookup phase key = some (invocation, factory) ∧
        other.lookup phase key = some (invocation, factory') := by
  have hfst := h.lookup phase key
  cases hl : registry.lookup phase key with
  | none =>
    rw [hl] at hfst
    exact Or.inl ⟨rfl, Option.map_eq_none_iff.mp hfst⟩
  | some found =>
    obtain ⟨invocation, factory⟩ := found
    rw [hl] at hfst
    obtain ⟨⟨invocation', factory'⟩, hl', rfl⟩ := Option.map_eq_some_iff.mp hfst
    exact Or.inr ⟨invocation', factory, factory', rfl, hl'⟩

/-- A key calls macros in the same phases. -/
theorem SameKeys.phasesFor (h : registry.SameKeys other) (key : String) :
    other.phasesFor key = registry.phasesFor key := by
  have hsome : ∀ phase, (other.lookup phase key).isSome = (registry.lookup phase key).isSome := by
    intro phase
    rcases h.lookup_cases phase key with ⟨hl, hl'⟩ | ⟨_, _, _, hl, hl'⟩
    · rw [hl, hl']
    · rw [hl, hl', Option.isSome_some, Option.isSome_some]
  simp only [Registry.phasesFor, hsome]

/-- A key is in the namespace of both or of neither. -/
theorem SameKeys.inSpace (h : registry.SameKeys other) (key : String) :
    other.vocabulary.inSpace key = registry.vocabulary.inSpace key := by
  have hspace : other.vocabulary.space = registry.vocabulary.space := h.space
  simp only [Macro.Vocabulary.inSpace, hspace]

end Registry

/-! ## The built-in macros -/

/-- A lookup among the second attributes finds what one among the first does, or stops with an extra
error. -/
def Attributes.Offers (extra : MacroError → Prop) (attributes attributes' : Attributes) : Prop :=
  ∀ name expected, Agrees extra (attributes.lookup name expected) (attributes'.lookup name expected)

/-- Attributes offer what they offer. -/
theorem Attributes.Offers.refl (extra : MacroError → Prop) (attributes : Attributes) :
    attributes.Offers extra attributes := fun _ _ => .refl _

namespace Macro

variable {extra : MacroError → Prop} {attributes attributes' : Attributes} {branch : Branch}
  {invocation : Invocation} {doc : Document} {phase : Phase} {space : String}
  {resolve resolve' : Value → Logged (Except MacroError Value)}

/-- Only the attributes can make a difference to what a lookup finds. -/
theorem agrees_lookupAttribute (hoffers : attributes.Offers extra attributes') :
    Agrees extra (lookupAttribute attributes ⟨doc, phase, space, resolve⟩ branch invocation)
      (lookupAttribute attributes' ⟨doc, phase, space, resolve'⟩ branch invocation) :=
  Agrees.bind (.refl _) fun _ _ => Agrees.bind (.refl _) fun name _ =>
    (hoffers name _).bind fun _ _ => .refl _

/-- Lookups agree if the attributes do and composites are expanded alike. -/
theorem agrees_lookup (ha : attributes.Ordered) (hoffers : attributes.Offers extra attributes')
    (hr : ∀ v, v.Ordered → Agrees extra (resolve v).value (resolve' v).value) :
    Agrees extra (lookup attributes ⟨doc, phase, space, resolve⟩ branch invocation).value
      (lookup attributes' ⟨doc, phase, space, resolve'⟩ branch invocation).value := by
  rw [value_lookup, value_lookup]
  refine (agrees_lookupAttribute hoffers).bind fun found hfound => ?_
  have hv := (ordered_of_lookup ha (lookup_of_lookupAttribute hfound)).1
  simp only [modifierFor]
  split
  · exact (hr found.2 hv).bind fun x _ => .refl _
  · exact .refl _

/-- Every built-in macro is there for any attributes; the lookups alone depend on them. -/
theorem exists_counterpart (attributes' : Attributes) {r : Registered}
    (hm : r ∈ builtins attributes) :
    ∃ r' ∈ builtins attributes', r'.definition = r.definition ∧
      (r.factory = lookup attributes ∧ r'.factory = lookup attributes' ∨
        r'.factory = r.factory) := by
  simp only [builtins, List.mem_cons, List.not_mem_nil, or_false] at hm
  rcases hm with rfl | rfl | rfl | rfl | rfl | rfl | rfl | rfl | rfl
  all_goals simp [builtins]

/-- No definition is given to two built-in macros. -/
theorem eq_of_definition_eq {r r' : Registered} (hm : r ∈ builtins attributes)
    (hm' : r' ∈ builtins attributes) (hd : r.definition = r'.definition) : r = r' := by
  have hnodup : ((builtins attributes).map Registered.definition).Nodup := by
    show (List.map Registered.definition (builtins [])).Nodup
    decide
  exact List.inj_on_of_nodup_map hnodup hm hm' hd

/-- What a built-in macro makes of its key depends on the attributes and on the expansion apart
alone.  It reads the document, too, but the two evaluators read the same one. -/
theorem agrees_builtin (ha : attributes.Ordered) (hoffers : attributes.Offers extra attributes')
    (hr : ∀ v, v.Ordered → Agrees extra (resolve v).value (resolve' v).value) {r r' : Registered}
    (hm : r ∈ builtins attributes) (hm' : r' ∈ builtins attributes')
    (hd : r'.definition = r.definition) :
    Agrees extra (r.factory ⟨doc, phase, space, resolve⟩ branch invocation).value
      (r'.factory ⟨doc, phase, space, resolve'⟩ branch invocation).value := by
  obtain ⟨s, hs, hsd, hfactory⟩ := exists_counterpart attributes' hm
  obtain rfl : s = r' := eq_of_definition_eq hs hm' (hsd.trans hd.symm)
  rcases hfactory with ⟨hf, hf'⟩ | hf'
  · rw [hf, hf']
    exact agrees_lookup ha hoffers hr
  · rw [hf']
    rcases factory_of_mem_builtins hm with hf | ⟨accepted, form, hf⟩ | hf
    · rw [hf]
      exact agrees_lookup ha (.refl extra attributes) hr
    · rw [hf]
      exact .refl _
    · rw [hf]
      exact .refl _

end Macro

namespace Evaluator

/-- The second evaluator calls macros at the same keys, knows no errors but the extra ones that the
first does not, and may take the first two walks of a phase if the first may. -/
structure Follows (extra : MacroError → Prop) (evaluator other : Evaluator) : Prop where
  registry : evaluator.registry.SameKeys other.registry
  kindCheck : other.kindCheck = evaluator.kindCheck
  depth : other.settings.maxLookupDepth = evaluator.settings.maxLookupDepth ∨
    other.settings.maxLookupDepth ≤ evaluator.settings.maxLookupDepth ∧
      ∀ limit, extra (.lookupDepthExceeded limit)
  strict : other.settings.strict = evaluator.settings.strict ∨
    evaluator.settings.strict = false ∧ ∀ path key, extra (.unknownMacro path key)
  mayWalk : ∀ walks, other.MayWalk walks → evaluator.MayWalk walks
  twice : ∀ walks < 2, evaluator.MayWalk walks →
    other.MayWalk walks ∨ ∀ phase, extra (.walkLimitExceeded phase walks)

/-- The macros of the two registries make the same of their keys, with values expanded apart in one
way or the other. -/
def Alike (extra : MacroError → Prop) (evaluator other : Evaluator) (resolve resolve' : Resolve) :
    Prop :=
  ∀ phase key invocation factory factory',
    evaluator.registry.lookup phase key = some (invocation, factory) →
    other.registry.lookup phase key = some (invocation, factory') →
    ∀ (doc : Document) (branch : Branch),
      Agrees extra
        (factory ⟨doc, phase, evaluator.registry.space, resolve⟩ branch invocation).value
        (factory' ⟨doc, phase, evaluator.registry.space, resolve'⟩ branch invocation).value

/-- The built-in macros of the two evaluators make the same of their keys. -/
theorem alike_builtin {extra : MacroError → Prop} {space : String}
    {attributes attributes' : Attributes} {settings settings' : Settings} {kindCheck : Bool}
    {resolve resolve' : Resolve} (ha : attributes.Ordered)
    (hoffers : attributes.Offers extra attributes')
    (hr : ∀ v, v.Ordered → Agrees extra (resolve v).value (resolve' v).value) :
    (builtin space attributes settings kindCheck).Alike extra
      (builtin space attributes' settings' kindCheck) resolve resolve' := by
  intro phase key invocation factory factory' hl hl' doc branch
  obtain ⟨r, hmem, hd, rfl, -⟩ :=
    (Registry.consistsOf_builtin space attributes).mem_of_lookup hl
  obtain ⟨r', hmem', hd', rfl, -⟩ :=
    (Registry.consistsOf_builtin space attributes').mem_of_lookup hl'
  exact Macro.agrees_builtin ha hoffers hr hmem hmem' (hd'.trans hd.symm)

variable {extra : MacroError → Prop} {evaluator other : Evaluator} {resolve resolve' : Resolve}
  {phase : Phase} {doc doc' : Document}

/-- Without the check of the kind, the one still follows the other. -/
theorem Follows.withoutKindCheck (h : Follows extra evaluator other) :
    Follows extra evaluator.withoutKindCheck other.withoutKindCheck :=
  ⟨h.registry, rfl, h.depth, h.strict, h.mayWalk, h.twice⟩

/-! ## Walks -/

/-- A key that calls no macro is passed over alike, unless only the second is strict. -/
theorem Follows.agrees_passOver (h : Follows extra evaluator other) (phase : Phase)
    (branch : Branch) (key : String) :
    Agrees extra (evaluator.passOver phase branch key).value
      (other.passOver phase branch key).value := by
  rw [value_passOver, value_passOver, h.registry.phasesFor]
  rcases h.strict with heq | ⟨hlenient, hextra⟩
  · rw [heq]
    exact .refl _
  · rw [hlenient, Bool.and_false, if_neg Bool.false_ne_true]
    split
    · exact Or.inr ⟨_, hextra branch.text key, rfl⟩
    · exact .refl _

/-- A visit calls macros that make the same, or passes over the key alike.  The keys at which macros
are called are the same for both. -/
theorem Follows.agrees_visit (h : Follows extra evaluator other)
    (ha : evaluator.Alike extra other resolve resolve') (pending : Pending) (branch : Branch) :
    Agrees extra (evaluator.visit resolve phase doc pending branch).value
      (other.visit resolve' phase doc pending branch).value := by
  rw [value_visit, value_visit, h.registry.space]
  cases branch.fieldName? with
  | none => exact .refl _
  | some key =>
    rcases h.registry.lookup_cases phase key with
      ⟨hl, hl'⟩ | ⟨invocation, factory, factory', hl, hl'⟩
    · simp only [hl, hl', h.registry.inSpace]
      split
      · exact (h.agrees_passOver phase branch key).map _
      · exact .refl _
    · simp only [hl, hl']
      exact (ha phase key invocation factory factory' hl hl' doc branch).map _

/-- Walks over one document agree. -/
theorem Follows.agrees_walkWith (h : Follows extra evaluator other)
    (ha : evaluator.Alike extra other resolve resolve') (hd : doc.InShape) (phase : Phase) :
    Agrees extra (evaluator.walkWith resolve phase doc).value
      (other.walkWith resolve' phase doc).value := by
  rw [value_walkWith evaluator resolve phase hd, value_walkWith other resolve' phase hd]
  refine Agrees.bind ?_ fun _ _ =>
    agrees_visitAll (fun branch _ state => h.agrees_visit ha state branch) _
  rw [value_checkKind, value_checkKind, h.kindCheck]
  exact .refl _

/-! ## Runs -/

/-- One of the first two walks of a phase is the same walk for both evaluators, or it ends the phase
with an extra error. -/
theorem Follows.same_walk_or_settles (h : Follows extra evaluator other)
    (ha : evaluator.Alike extra other resolve resolve') (hd : doc.InShape) {walks modifiers : Nat}
    (hlt : walks < 2) (hmay : evaluator.MayWalk walks) :
    (other.MayWalk walks ∧ (other.walkWith resolve' phase doc).value
        = (evaluator.walkWith resolve phase doc).value) ∨
      ∃ taken e doc', taken ≤ 1 ∧ extra e ∧
        Settles other resolve' phase walks modifiers doc taken (.error e, doc') := by
  by_cases hother : other.MayWalk walks
  · rcases h.agrees_walkWith ha hd phase with heq | ⟨e, he, hw⟩
    · exact Or.inl ⟨hother, heq⟩
    · exact Or.inr ⟨1, e, doc, Nat.le_refl 1, he, .stopped hother hw⟩
  · rcases h.twice walks hlt hmay with hmay' | hextra
    · exact absurd hmay' hother
    · exact Or.inr ⟨0, _, doc, Nat.zero_le 1, hextra phase, .limited hother⟩

/-- A phase that settles within two walks does so for both evaluators, and ends alike.  By the way
in which the first one settles.  After a walk that finds modifiers both go on from what these leave,
and the second walk is compared again. -/
theorem Settles.follow {walks modifiers taken : Nat}
    {out : Except MacroError PhaseReport × Document}
    (hs : Settles evaluator resolve phase walks modifiers doc taken out)
    (h : Follows extra evaluator other) (ha : evaluator.Alike extra other resolve resolve')
    (hd : doc.InShape) (hev : evaluator.Rewriting resolve) (hle : walks + taken ≤ 2) :
    ∃ taken' out', taken' ≤ taken ∧
      Settles other resolve' phase walks modifiers doc taken' out' ∧ EndAlike extra out out' := by
  have hextra : ∀ {walks modifiers taken : Nat} {doc : Document}
      {out : Except MacroError PhaseReport × Document}, 1 ≤ taken →
      (∃ taken' e doc', taken' ≤ 1 ∧ extra e ∧
        Settles other resolve' phase walks modifiers doc taken' (.error e, doc')) →
      ∃ taken' out', taken' ≤ taken ∧
        Settles other resolve' phase walks modifiers doc taken' out' ∧ EndAlike extra out out' :=
    fun ht ⟨taken', e, _, ht', he, hs⟩ =>
      ⟨taken', _, Nat.le_trans ht' ht, hs, Or.inr ⟨e, he, rfl⟩⟩
  induction hs with
  | limited hmay =>
    -- The other may not walk either.
    exact ⟨0, _, Nat.le_refl 0, .limited fun hother => hmay (h.mayWalk _ hother), .refl _⟩
  | stopped hmay hw =>
    rcases h.same_walk_or_settles ha hd (by omega) hmay with ⟨hother, heq⟩ | hstops
    · exact ⟨1, _, Nat.le_refl 1, .stopped hother (heq.trans hw), .refl _⟩
    · exact hextra (Nat.le_refl 1) hstops
  | rested hmay hw hempty =>
    rcases h.same_walk_or_settles ha hd (by omega) hmay with ⟨hother, heq⟩ | hstops
    · exact ⟨1, _, Nat.le_refl 1, .rested hother (heq.trans hw) hempty, .refl _⟩
    · exact hextra (Nat.le_refl 1) hstops
  | failed hmay hw hsome happlied =>
    rcases h.same_walk_or_settles ha hd (by omega) hmay with ⟨hother, heq⟩ | hstops
    · exact ⟨1, _, Nat.le_refl 1, .failed hother (heq.trans hw) hsome happlied, .refl _⟩
    · exact hextra (Nat.le_refl 1) hstops
  | again hmay hw hsome happlied hs ih =>
    rcases h.same_walk_or_settles ha hd (by omega) hmay with ⟨hother, heq⟩ | hstops
    · -- Both ran the same modifiers, and what they leave is still in shape.
      have hd' := (clean_of_applyAll hd hev (not_occurs_calls_nil evaluator _) hw happlied).1
      obtain ⟨taken', out', htaken, hs', hend⟩ := ih hd' (by omega)
      exact ⟨taken' + 1, out', by omega, .again hother (heq.trans hw) hsome happlied hs', hend⟩
    · exact hextra (by omega) hstops

/-- Phases that take two walks each at most do so for both evaluators, and end alike.  By induction
on the phases: up to the first extra error, the documents are the same. -/
theorem Runs.follow {phases : List Phase} {walks : List (Phase × Nat)}
    {out : Except MacroError (List PhaseReport) × Document}
    (hr : Runs evaluator resolve phases doc walks out) (h : Follows extra evaluator other)
    (ha : evaluator.Alike extra other resolve resolve') (hd : doc.InShape)
    (hev : evaluator.Rewriting resolve) (hle : ∀ entry ∈ walks, entry.2 ≤ 2) :
    ∃ walks' out', (∀ entry ∈ walks', entry.2 ≤ 2) ∧
      Runs other resolve' phases doc walks' out' ∧ EndAlike extra out out' := by
  induction hr with
  | nil => exact ⟨[], _, by simp, .nil, .refl _⟩
  | @stopped phase rest doc d taken e hs =>
    have htaken : taken ≤ 2 := hle (phase, taken) List.mem_cons_self
    obtain ⟨taken', ⟨result, d'⟩, htaken', hs', hend⟩ := hs.follow h ha hd hev (by omega)
    have hle' : ∀ entry ∈ [(phase, taken')], entry.2 ≤ 2 := by
      simpa using Nat.le_trans htaken' htaken
    rcases hend with heq | ⟨e', he, rfl⟩
    · obtain ⟨rfl, rfl⟩ := Prod.mk.inj heq
      exact ⟨_, _, hle', .stopped hs', .refl _⟩
    · exact ⟨_, _, hle', .stopped hs', Or.inr ⟨e', he, rfl⟩⟩
  | @next phase rest doc d d'' taken report walks result hs hr ih =>
    have htaken : taken ≤ 2 := hle (phase, taken) List.mem_cons_self
    obtain ⟨taken', ⟨result', d'⟩, htaken', hs', hend⟩ := hs.follow h ha hd hev (by omega)
    -- If the phase ends with an extra error, so does the run, whatever the other phases do.
    rcases hend with heq | ⟨e', he, rfl⟩
    · obtain ⟨rfl, rfl⟩ := Prod.mk.inj heq
      have hd' := (hs.clean rfl hd hev (not_occurs_calls_nil evaluator _)).1
      obtain ⟨walks', ⟨result', d'⟩, hle', hr', hend'⟩ :=
        ih hd' fun entry hmem => hle entry (List.mem_cons_of_mem _ hmem)
      exact ⟨(phase, taken') :: walks', _,
        List.forall_mem_cons.mpr ⟨Nat.le_trans htaken' htaken, hle'⟩, .next hs' hr',
        hend'.map _⟩
    · exact ⟨[(phase, taken')], _, by simpa using Nat.le_trans htaken' htaken, .stopped hs',
        Or.inr ⟨e', he, rfl⟩⟩

/-- Runs from one document end alike. -/
theorem Follows.endAlike_runWith (h : Follows extra evaluator other)
    (ha : evaluator.Alike extra other resolve resolve') (hd : doc.InShape)
    (hev : evaluator.Rewriting resolve) (hev' : other.Rewriting resolve') (whole : Bool) :
    EndAlike extra (evaluator.runWith resolve whole doc).value
      (other.runWith resolve' whole doc).value := by
  rw [value_runWith_of_rewriting hd hev, value_runWith_of_rewriting hd hev']
  obtain ⟨walks, out, hle, hr⟩ := exists_runs hd hev (not_occurs_calls_nil evaluator _) Phase.all
  obtain ⟨walks', out', hle', hr', hend⟩ := hr.follow h ha hd hev hle
  rw [value_runPhases_of_runs hr hle, value_runPhases_of_runs hr' hle']
  exact hend.map _

/-! ## Runs of the built-in macros -/

section

variable {space : String} {attributes attributes' : Attributes} {settings settings' : Settings}
  {kindCheck : Bool}

/-- Values are expanded apart alike, at any level; the second evaluator may have fewer levels if it
is an extra error to run out of them.  By induction on the levels, each of which is a run that is
compared as above. -/
theorem Follows.agrees_resolve
    (h : Follows extra (builtin space attributes settings kindCheck)
      (builtin space attributes' settings' kindCheck))
    (ha : attributes.Ordered) (ha' : attributes'.Ordered)
    (hoffers : attributes.Offers extra attributes') {levels levels' : Nat}
    (hlevels : levels' = levels ∧ settings'.maxLookupDepth = settings.maxLookupDepth ∨
      levels' ≤ levels ∧ ∀ limit, extra (.lookupDepthExceeded limit)) :
    ∀ v : Value, v.Ordered →
      Agrees extra ((builtin space attributes settings kindCheck).resolve levels v).value
        ((builtin space attributes' settings' kindCheck).resolve levels' v).value := by
  induction levels' generalizing levels with
  | zero =>
    intro v _
    rcases hlevels with ⟨rfl, hdepth⟩ | ⟨-, hextra⟩
    · have hlimit : (builtin space attributes' settings' kindCheck).settings.maxLookupDepth
          = (builtin space attributes settings kindCheck).settings.maxLookupDepth := hdepth
      rw [value_resolve_zero, value_resolve_zero, hlimit]
      exact .refl _
    · exact Or.inr ⟨_, hextra _, value_resolve_zero _ v⟩
  | succ levels' ih =>
    intro v hv
    have hshape : (Document.ofValue v).InShape := ⟨_, Shape.ofValue hv⟩
    -- The first evaluator has a level left as well.
    obtain ⟨below, rfl⟩ : ∃ below, levels = below + 1 := by
      rcases hlevels with ⟨rfl, -⟩ | ⟨hle, -⟩
      · exact ⟨levels', rfl⟩
      · exact ⟨levels - 1, by omega⟩
    have hbelow : levels' = below ∧ settings'.maxLookupDepth = settings.maxLookupDepth ∨
        levels' ≤ below ∧ ∀ limit, extra (.lookupDepthExceeded limit) := by
      rcases hlevels with ⟨hlevels, hdepth⟩ | ⟨hle, hextra⟩
      · exact Or.inl ⟨by omega, hdepth⟩
      · exact Or.inr ⟨by omega, hextra⟩
    have hruns := h.withoutKindCheck.endAlike_runWith (alike_builtin ha hoffers (ih hbelow)) hshape
      (rewriting_resolve ha below).withoutKindCheck
      (rewriting_resolve ha' levels').withoutKindCheck false
    rw [value_resolve_succ, value_resolve_succ]
    rcases hruns with heq | ⟨e, he, hout⟩
    · rw [heq]
      exact .refl _
    · refine Or.inr ⟨e, he, ?_⟩
      simp only [hout]
      rfl

/-- Whole runs end alike, whatever the attributes, if lookups among them do. -/
theorem Follows.endAlike_run_of_offers
    (h : Follows extra (builtin space attributes settings kindCheck)
      (builtin space attributes' settings' kindCheck))
    (ha : attributes.Ordered) (ha' : attributes'.Ordered)
    (hoffers : attributes.Offers extra attributes') (hd : doc.InShape) :
    EndAlike extra ((builtin space attributes settings kindCheck).run doc).value
      ((builtin space attributes' settings' kindCheck).run doc).value := by
  have hlevels : settings'.maxLookupDepth = settings.maxLookupDepth ∧
      settings'.maxLookupDepth = settings.maxLookupDepth ∨
      settings'.maxLookupDepth ≤ settings.maxLookupDepth ∧
        ∀ limit, extra (.lookupDepthExceeded limit) := h.depth.imp_left fun heq => ⟨heq, heq⟩
  have hresolve := h.agrees_resolve ha ha' hoffers hlevels
  exact h.endAlike_runWith (alike_builtin ha hoffers hresolve) hd
    (rewriting_resolve ha _) (rewriting_resolve ha' _) true

/-- Whole runs with the same attributes end alike. -/
theorem Follows.endAlike_run
    (h : Follows extra (builtin space attributes settings kindCheck)
      (builtin space attributes settings' kindCheck))
    (ha : attributes.Ordered) (hd : doc.InShape) :
    EndAlike extra ((builtin space attributes settings kindCheck).run doc).value
      ((builtin space attributes settings' kindCheck).run doc).value :=
  h.endAlike_run_of_offers ha ha (.refl extra attributes) hd

end

end Evaluator

end Expansion
