import Expansion.Macro.Evaluator
import Expansion.Proofs.Macro.Builtin
import Expansion.Proofs.Macro.Effect

/-!
  What a walk collects, and what its modifiers leave.

  A walk in a phase collects one modifier for each key that calls a macro of the phase, or stops
  (`Collected`, `Evaluator.collected_of_walk`).  When no key of earlier phases is left, these
  modifiers cover the keys of the phases so far (`Evaluator.covers_of_walk`); so once they have run
  no such key is left, and a walk finds nothing (`Evaluator.clean_of_applyAll`,
  `Evaluator.clean_of_isEmpty`).
-/

namespace Expansion

namespace Registry

/-- The key calls a macro in one of the phases. -/
def Calls (registry : Registry) (phases : List Phase) (key : String) : Prop :=
  ∃ phase ∈ phases, (registry.lookup phase key).isSome

/-- A key that calls no macro calls none of some phases. -/
theorem Idle.not_calls {registry : Registry} {key : String} (h : registry.Idle key)
    (phases : List Phase) : ¬ registry.Calls phases key := by
  rintro ⟨phase, -, hs⟩
  simp [h phase] at hs

/-- To call no macro is to call none of all phases. -/
theorem idle_iff_not_calls {registry : Registry} {key : String} :
    registry.Idle key ↔ ¬ registry.Calls Phase.all key := by
  refine ⟨fun h => h.not_calls _, fun h phase => ?_⟩
  cases hl : registry.lookup phase key with
  | none => rfl
  | some found => exact absurd ⟨phase, Phase.mem_all phase, by simp [hl]⟩ h

/-- A key calls no macro when there is no phase in which it does. -/
theorem phasesFor_isEmpty_iff {registry : Registry} {key : String} :
    (registry.phasesFor key).isEmpty = true ↔ registry.Idle key := by
  simp [phasesFor, Idle, List.filter_eq_nil_iff, Phase.mem_all]

end Registry

/-- Names that are good in one sense are good in a wider one. -/
theorem Value.EveryKey.mono {ok good : String → Prop} (h : ∀ name, ok name → good name) {v : Value}
    (ho : v.Ordered) (hv : v.EveryKey ok) : v.EveryKey good :=
  (Value.everyKey_iff ho).mpr fun _ name hs => h name (hv.of_get? hs)

/-- What is brought in with good names has good names in a wider sense. -/
theorem Modifier.Rewrites.mono {ok good : String → Prop} (h : ∀ name, ok name → good name)
    {m : Modifier} (hm : m.Rewrites ok) : m.Rewrites good := by
  obtain ⟨w, name, hp, hr⟩ := hm
  refine ⟨w, name, hp, ?_⟩
  generalize m.instructions = instructions at hr ⊢
  cases hr with
  | replace ho hx => exact .replace ho (hx.mono h ho)
  | merge ho hx => exact .merge ho (hx.mono h ho)
  | encode form => exact .encode form
  | remove => exact .remove

namespace Evaluator

/-- Whatever modifier a macro makes for its key rewrites the wrapper of the key, with values that
call no macro. -/
def Rewriting (evaluator : Evaluator) (resolve : Resolve) : Prop :=
  ∀ phase key invocation factory,
    evaluator.registry.lookup phase key = some (invocation, factory) →
    ∀ (doc : Document) (branch : Branch) (w : Path), branch.path = w ++ [.field key] →
    ∀ m, (factory ⟨doc, phase, evaluator.registry.space, resolve⟩ branch invocation).value = .ok m →
      m.path = branch.path ∧ m.Rewrites evaluator.registry.Idle

variable {evaluator : Evaluator} {resolve : Resolve} {phase : Phase} {doc doc' : Document}

/-! ## One branch -/

/-- The check of the kind, without the journal. -/
theorem value_checkKind (evaluator : Evaluator) (doc : Document) :
    (evaluator.checkKind doc).value =
      match if evaluator.kindCheck then kindFault? doc else none with
      | none => .ok ()
      | some fault => .error (.unknownKind fault) := by
  rw [checkKind]
  cases if evaluator.kindCheck then kindFault? doc else none <;> rfl

/-- A key in the namespace that calls no macro at all is an error under strict settings. -/
theorem value_passOver (evaluator : Evaluator) (phase : Phase) (branch : Branch) (key : String) :
    (evaluator.passOver phase branch key).value =
      if (evaluator.registry.phasesFor key).isEmpty && evaluator.settings.strict then
        .error (.unknownMacro branch.text key)
      else .ok () := by
  simp only [passOver]
  cases (evaluator.registry.phasesFor key).isEmpty <;> cases evaluator.settings.strict <;> rfl

/-- What is done at a branch, without the journal.  The journal tells which macro is called and what
is passed over, and has no influence on what is pending. -/
theorem value_visit (evaluator : Evaluator) (resolve : Resolve) (phase : Phase) (doc : Document)
    (pending : Pending) (branch : Branch) :
    (evaluator.visit resolve phase doc pending branch).value =
      match branch.fieldName? with
      | none => .ok pending
      | some key =>
        match evaluator.registry.lookup phase key with
        | some (invocation, factory) =>
          ((factory ⟨doc, phase, evaluator.registry.space, resolve⟩ branch invocation).value).map
            fun m => pending.add m
        | none =>
          if evaluator.registry.vocabulary.inSpace key then
            (evaluator.passOver phase branch key).value.map fun _ => pending
          else .ok pending := by
  simp only [visit]
  cases branch.fieldName? with
  | none => rfl
  | some key =>
    simp only
    cases evaluator.registry.lookup phase key with
    | none =>
      simp only
      split <;> rfl
    -- Where a macro is called, the journal notes its modifier, or that it was replaced.
    | some found =>
      obtain ⟨invocation, factory⟩ := found
      simp only [Logged.value_bind]
      cases (factory ⟨doc, phase, evaluator.registry.space, resolve⟩ branch invocation).value with
      | error e => rfl
      | ok m => simp [Except.map]

/-! ## One walk -/

/-- The pending modifiers are those of the keys on some branches. -/
structure Collected (evaluator : Evaluator) (phase : Phase) (branches : List Branch)
    (pending : Pending) : Prop where
  filed : pending.Filed
  rewrites : ∀ m ∈ pending.all, m.Rewrites evaluator.registry.Idle
  sound : ∀ m ∈ pending.all, ∃ branch ∈ branches, m.path = branch.path ∧
    ∃ key, branch.fieldName? = some key ∧ (evaluator.registry.lookup phase key).isSome
  complete : ∀ branch ∈ branches, ∀ key, branch.fieldName? = some key →
    (evaluator.registry.lookup phase key).isSome → pending.At branch.path

/-- The values that pending modifiers bring in are in order. -/
theorem Collected.ordered {branches : List Branch} {pending : Pending}
    (h : evaluator.Collected phase branches pending) : ∀ m ∈ pending.all, m.Ordered :=
  fun m hm => (h.rewrites m hm).ordered

/-- Before the first branch nothing is collected. -/
theorem collected_nil (evaluator : Evaluator) (phase : Phase) :
    evaluator.Collected phase [] {} :=
  ⟨by simp [Pending.Filed], by simp [Pending.all], by simp [Pending.all], by simp⟩

/-- A branch without a key of the phase adds nothing. -/
theorem Collected.pass {branches : List Branch} {pending : Pending} {branch : Branch}
    (h : evaluator.Collected phase branches pending)
    (hb : ∀ key, branch.fieldName? = some key → evaluator.registry.lookup phase key = none) :
    evaluator.Collected phase (branches ++ [branch]) pending := by
  refine ⟨h.filed, h.rewrites, fun m hm => ?_, fun b hm key hk hs => ?_⟩
  · obtain ⟨b, hb, hp⟩ := h.sound m hm
    exact ⟨b, List.mem_append_left _ hb, hp⟩
  · rcases List.mem_append.mp hm with hm | hm
    · exact h.complete b hm key hk hs
    · obtain rfl := List.mem_singleton.mp hm
      simp [hb key hk] at hs

/-- A key of the phase adds its modifier.  At its path the new modifier may take the place of
another one; then it is the new one that is there. -/
theorem Collected.add {branches : List Branch} {pending : Pending} {branch : Branch} {m : Modifier}
    {key : String} (h : evaluator.Collected phase branches pending)
    (hk : branch.fieldName? = some key) (hs : (evaluator.registry.lookup phase key).isSome)
    (hp : m.path = branch.path) (hr : m.Rewrites evaluator.registry.Idle) :
    evaluator.Collected phase (branches ++ [branch]) (pending.add m) := by
  refine ⟨h.filed.add m, fun m' hm' => ?_, fun m' hm' => ?_, fun b hm key' hk' hs' => ?_⟩
  · rcases Pending.mem_all_add hm' with rfl | hm'
    · exact hr
    · exact h.rewrites m' hm'
  · rcases Pending.mem_all_add hm' with rfl | hm'
    · exact ⟨branch, List.mem_append_right _ (List.mem_singleton_self _), hp, key, hk, hs⟩
    · obtain ⟨b, hb, hp⟩ := h.sound m' hm'
      exact ⟨b, List.mem_append_left _ hb, hp⟩
  · rcases List.mem_append.mp hm with hm | hm
    · exact (h.complete b hm key' hk' hs').add h.filed m
    · obtain rfl := List.mem_singleton.mp hm
      rw [← hp]
      exact Pending.at_add_self m pending

/-- At a branch that is shown without an error, either no macro of the phase is called and nothing
changes, or the modifier of the macro is added.  What is not called may still be in the namespace;
under lenient settings it is passed over. -/
theorem visit_cases {pending pending' : Pending} {branch : Branch}
    (hv : (evaluator.visit resolve phase doc pending branch).value = .ok pending') :
    (pending' = pending ∧
      ∀ key, branch.fieldName? = some key → evaluator.registry.lookup phase key = none) ∨
    ∃ key invocation factory m, branch.fieldName? = some key ∧
      evaluator.registry.lookup phase key = some (invocation, factory) ∧
      (factory ⟨doc, phase, evaluator.registry.space, resolve⟩ branch invocation).value = .ok m ∧
      pending' = pending.add m := by
  rw [value_visit] at hv
  cases hk : branch.fieldName? with
  | none =>
    rw [hk] at hv
    exact Or.inl ⟨(Except.ok.inj hv).symm, fun _ h => nomatch h⟩
  | some key =>
    rw [hk] at hv
    simp only at hv
    cases hl : evaluator.registry.lookup phase key with
    -- No macro of the phase is called; the key may still be one that strict settings object to.
    | none =>
      refine Or.inl ⟨?_, fun _ h => Option.some.inj h ▸ hl⟩
      rw [hl] at hv
      simp only at hv
      split at hv
      · cases hp : (evaluator.passOver phase branch key).value with
        | error e => simp [hp, Except.map] at hv
        | ok u =>
          rw [hp] at hv
          exact (Except.ok.inj hv).symm
      · exact (Except.ok.inj hv).symm
    | some found =>
      obtain ⟨invocation, factory⟩ := found
      rw [hl] at hv
      simp only at hv
      cases hf : (factory ⟨doc, phase, evaluator.registry.space, resolve⟩ branch invocation).value
        with
      | error e => simp [hf, Except.map] at hv
      | ok m =>
        rw [hf] at hv
        exact Or.inr ⟨key, invocation, factory, m, rfl, hl, hf, (Except.ok.inj hv).symm⟩

/-- One more branch, shown without an error.  The branch leads to a node under a field, so the macro
that is called makes a modifier for that field. -/
theorem Collected.visit {branches : List Branch} {pending pending' : Pending} {branch : Branch}
    (h : evaluator.Collected phase branches pending) (hev : evaluator.Rewriting resolve)
    (hb : branch.Leads doc.root)
    (hv : (evaluator.visit resolve phase doc pending branch).value = .ok pending') :
    evaluator.Collected phase (branches ++ [branch]) pending' := by
  rcases visit_cases hv with ⟨rfl, hnone⟩ | ⟨key, invocation, factory, m, hk, hl, hf, rfl⟩
  · exact h.pass hnone
  · obtain ⟨before, k, n, hlead⟩ := hb
    have hfield : k.name? = some key := by
      rw [Branch.fieldName?, hlead.key] at hk
      exact hk
    cases k with
    | index i => cases hfield
    | field name =>
      obtain rfl : name = key := Option.some.inj hfield
      obtain ⟨hp, hr⟩ := hev phase name invocation factory hl doc branch before hlead.path m hf
      exact h.add hk (by simp [hl]) hp hr

/-- All branches, shown one after the other.  By induction on the branches, with those before as
what is collected so far. -/
theorem Collected.visitAll {before branches : List Branch} {pending pending' : Pending}
    (h : evaluator.Collected phase before pending) (hev : evaluator.Rewriting resolve)
    (hb : ∀ branch ∈ branches, branch.Leads doc.root)
    (hv : Expansion.visitAll (evaluator.visit resolve phase doc) branches pending = .ok pending') :
    evaluator.Collected phase (before ++ branches) pending' := by
  induction branches generalizing before pending with
  | nil =>
    obtain rfl := Except.ok.inj hv
    rwa [List.append_nil]
  | cons branch rest ih =>
    rw [Expansion.visitAll] at hv
    cases hs : (evaluator.visit resolve phase doc pending branch).value with
    | error e => simp [hs] at hv
    | ok next =>
      rw [hs] at hv
      have hstep := h.visit hev (hb branch List.mem_cons_self) hs
      have := ih hstep (fun b hm => hb b (List.mem_cons_of_mem _ hm)) hv
      rwa [List.append_assoc] at this

/-- A walk checks the kind and shows the branches of the document. -/
theorem value_walkWith (evaluator : Evaluator) (resolve : Resolve) (phase : Phase)
    (h : doc.InShape) :
    (evaluator.walkWith resolve phase doc).value =
      (evaluator.checkKind doc).value.bind fun _ =>
        Expansion.visitAll (evaluator.visit resolve phase doc) doc.shown {} := by
  simp only [walkWith, Logged.value_bind]
  cases (evaluator.checkKind doc).value with
  | error e => rfl
  | ok u =>
    simp only [Logged.value_bind, h.value_walk]
    cases Expansion.visitAll (evaluator.visit resolve phase doc) doc.shown {} with
    | error e => rfl
    | ok pending => rfl

/-- A walk that does not stop has shown all branches of the document. -/
theorem visitAll_of_walk (h : doc.InShape) {pending : Pending}
    (hw : (evaluator.walkWith resolve phase doc).value = .ok pending) :
    Expansion.visitAll (evaluator.visit resolve phase doc) doc.shown {} = .ok pending := by
  rw [value_walkWith evaluator resolve phase h] at hw
  cases hc : (evaluator.checkKind doc).value with
  | error e => simp [hc, Except.bind] at hw
  | ok u =>
    rw [hc] at hw
    exact hw

/-- A walk that does not stop collects the modifiers of the phase. -/
theorem collected_of_walk (h : doc.InShape) (hev : evaluator.Rewriting resolve) {pending : Pending}
    (hw : (evaluator.walkWith resolve phase doc).value = .ok pending) :
    evaluator.Collected phase doc.shown pending :=
  (collected_nil evaluator phase).visitAll hev h.leads_of_mem_shown (visitAll_of_walk h hw)

/-! ## What the modifiers leave -/

/-- The modifiers of a walk cover the keys of the phase, and those of earlier phases when there are
none.  A key above that of a modifier is on the way to it, so it is in the document, and has its own
modifier. -/
theorem covers_of_walk (h : doc.InShape) (hev : evaluator.Rewriting resolve) {done : List Phase}
    (hdone : ∀ path, ¬ doc.toValue.Occurs (evaluator.registry.Calls done) path) {pending : Pending}
    (hw : (evaluator.walkWith resolve phase doc).value = .ok pending) :
    Covers (evaluator.registry.Calls (phase :: done)) pending.inOrder doc := by
  have hc := collected_of_walk h hev hw
  have hcovered : ∀ path, doc.toValue.Occurs (evaluator.registry.Calls (phase :: done)) path →
      ∃ m ∈ pending.inOrder, m.path = path := by
    rintro path ⟨before, name, rfl, ⟨p, hp, hs⟩, hres⟩
    -- A key of this phase has its modifier; one of an earlier phase is not there.
    rcases List.mem_cons.mp hp with rfl | hp
    · obtain ⟨branch, hb, hpath, key, hkey, hcalls⟩ := h.occurs_iff.mp
        (⟨before, name, rfl, hs, hres⟩ : doc.toValue.Occurs
          (fun key => (evaluator.registry.lookup p key).isSome) (before ++ [.field name]))
      obtain ⟨m, hm, hmp⟩ := hc.complete branch hb key hkey hcalls
      exact ⟨m, Pending.mem_inOrder.mpr hm, hmp.trans hpath⟩
    · exact absurd ⟨before, name, rfl, ⟨p, hp, hs⟩, hres⟩ (hdone _)
  refine ⟨h, hcovered, fun m hm before name hname hprefix => hcovered _ ?_⟩
  -- The key of a modifier resolves, and so does every key that leads to it.
  obtain ⟨branch, hb, hpath, -⟩ := hc.sound m (Pending.mem_inOrder.mp hm)
  obtain ⟨before', key, n, hlead⟩ := h.leads_of_mem_shown branch hb
  obtain ⟨rest, hrest⟩ := hprefix
  refine ⟨before, name, rfl, hname, ?_⟩
  have hat : (doc.toValue.get? m.path).isSome := by
    rw [hpath, Document.toValue, ← Node.value_at?, hlead.at?]
    rfl
  rw [← hrest, Value.get?_append] at hat
  obtain ⟨v, hv⟩ := Option.isSome_iff_exists.mp hat
  obtain ⟨u, hu, -⟩ := Option.bind_eq_some_iff.mp hv
  exact Option.isSome_iff_exists.mpr ⟨u, hu⟩

/-- Modifiers that have run leave no key of the phases so far. -/
theorem clean_of_applyAll (h : doc.InShape) (hev : evaluator.Rewriting resolve)
    {done : List Phase}
    (hdone : ∀ path, ¬ doc.toValue.Occurs (evaluator.registry.Calls done) path) {pending : Pending}
    (hw : (evaluator.walkWith resolve phase doc).value = .ok pending) {applied : Nat}
    (ha : (pending.applyAll doc).value = (.ok applied, doc')) :
    doc'.InShape ∧
      ∀ path, ¬ doc'.toValue.Occurs (evaluator.registry.Calls (phase :: done)) path := by
  have hc := collected_of_walk h hev hw
  have happlied : (Modifier.applyEach pending.inOrder doc).value = (.ok (), doc') := by
    rw [Pending.applyAll, Edit.value_bind] at ha
    rcases hd : (Modifier.applyEach pending.inOrder doc).value with ⟨e | _, d⟩
    · rw [hd] at ha
      cases ha
    · rw [hd] at ha
      obtain rfl : d = doc' := congrArg Prod.snd ha
      rfl
  have hend := (covers_of_walk h hev hdone hw).applyEach pending.pairwise_inOrder
    (fun m hm => (hc.rewrites m (Pending.mem_inOrder.mp hm)).mono fun _ hi => hi.not_calls _)
    happlied
  exact ⟨hend.shape, hend.not_occurs⟩

/-- A walk that finds nothing leaves no key of the phases so far. -/
theorem clean_of_isEmpty (h : doc.InShape) (hev : evaluator.Rewriting resolve) {done : List Phase}
    (hdone : ∀ path, ¬ doc.toValue.Occurs (evaluator.registry.Calls done) path) {pending : Pending}
    (hw : (evaluator.walkWith resolve phase doc).value = .ok pending)
    (he : pending.isEmpty = true) (path : Path) :
    ¬ doc.toValue.Occurs (evaluator.registry.Calls (phase :: done)) path := by
  intro ho
  obtain ⟨m, hm, -⟩ := (covers_of_walk h hev hdone hw).covered path ho
  rw [Pending.mem_inOrder, Pending.isEmpty_iff.mp he] at hm
  cases hm

/-- Where no key calls a macro of the phase, a walk finds nothing. -/
theorem isEmpty_of_clean (h : doc.InShape) (hev : evaluator.Rewriting resolve)
    {phases : List Phase} (hp : phase ∈ phases)
    (hclean : ∀ path, ¬ doc.toValue.Occurs (evaluator.registry.Calls phases) path)
    {pending : Pending} (hw : (evaluator.walkWith resolve phase doc).value = .ok pending) :
    pending.isEmpty = true := by
  rw [Pending.isEmpty_iff, List.eq_nil_iff_forall_not_mem]
  intro m hm
  obtain ⟨branch, hb, -, key, hkey, hs⟩ := (collected_of_walk h hev hw).sound m hm
  exact hclean branch.path (h.occurs_iff.mpr ⟨branch, hb, rfl, key, hkey, phase, hp, hs⟩)

end Evaluator

end Expansion
