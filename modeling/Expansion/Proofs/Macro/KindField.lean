import Expansion.Proofs.Macro.Accounts
import Expansion.Proofs.Macro.Failure
import Expansion.Proofs.Macro.Reports

/-!
  What documents must say before they are walked.

  The check before a walk looks at one field: the first one, in order of name, that is called `kind`
  in any case.  So it passes exactly when that field holds a text or an object that is not empty
  (`kindFault?_eq_none_iff`), whatever the later fields of that name hold.  Where the fields called
  `kind` are all filled or none is, this is the same as having a filled one
  (`Value.saysKindFirst_iff`); where the first is empty and a later one filled, it is not
  (`walk_overlooks_later_kind`).

  A walk that passes the check is the walk without the check, down to the journal, so an unknown
  kind is reported by the check or by a macro.  Nothing else reports one: not the walk of a
  document, not the modifiers, not the values that are expanded apart (`reports_resolve_elsewhere`,
  by induction on the levels).
-/

namespace Expansion

/-- Case is that of the letters `A` to `Z`, letter by letter. -/
theorem Kind.equalIgnoringCase_iff {a b : String} :
    equalIgnoringCase a b = true ↔ a.toList.map Char.toLower = b.toList.map Char.toLower := by
  rw [equalIgnoringCase, decide_eq_true_iff, ← String.toList_inj, String.toList_map,
    String.toList_map]

namespace Value

/-- A text or an object that is not empty. -/
inductive Filled : Value → Prop
  | string {s : String} (h : s ≠ "") : Filled (.string s)
  | object {fields : List (String × Value)} (h : fields ≠ []) : Filled (.object fields)

/-- The name is `kind`, in any case of its letters. -/
def namesKind (entry : String × Value) : Bool := Kind.equalIgnoringCase entry.1 "kind"

/-- An object with a filled field called `kind`. -/
def SaysKind (v : Value) : Prop :=
  ∃ fields, v = .object fields ∧ ∃ entry ∈ fields, namesKind entry = true ∧ entry.2.Filled

/-- An object whose first field called `kind` is filled. -/
def SaysKindFirst (v : Value) : Prop :=
  ∃ fields, v = .object fields ∧ ∃ entry, fields.find? namesKind = some entry ∧ entry.2.Filled

/-- Of the fields called `kind`, all are filled or none is. -/
def AgreesOnKind (v : Value) : Prop :=
  ∀ fields, v = .object fields → ∀ a ∈ fields, ∀ b ∈ fields,
    namesKind a = true → namesKind b = true → a.2.Filled → b.2.Filled

/-- The first field called `kind` is one of them. -/
theorem SaysKindFirst.saysKind {v : Value} (h : v.SaysKindFirst) : v.SaysKind := by
  obtain ⟨fields, rfl, entry, hfind, hfilled⟩ := h
  exact ⟨fields, rfl, entry, List.mem_of_find?_eq_some hfind, List.find?_some hfind, hfilled⟩

/-- Where the fields called `kind` agree, the first one speaks for all. -/
theorem saysKindFirst_iff {v : Value} (h : v.AgreesOnKind) : v.SaysKindFirst ↔ v.SaysKind := by
  refine ⟨SaysKindFirst.saysKind, ?_⟩
  rintro ⟨fields, rfl, entry, hmem, hname, hfilled⟩
  have hsome : (fields.find? namesKind).isSome = true :=
    List.find?_isSome.mpr ⟨entry, hmem, hname⟩
  obtain ⟨first, hfirst⟩ := Option.isSome_iff_exists.mp hsome
  exact ⟨fields, rfl, first, hfirst, h fields rfl entry hmem first
    (List.mem_of_find?_eq_some hfirst) hname (List.find?_some hfirst) hfilled⟩

/-- Fields that are all filled agree. -/
theorem agreesOnKind_of_forall {fields : List (String × Value)}
    (h : ∀ entry ∈ fields, entry.2.Filled) : (object fields).AgreesOnKind := by
  rintro _ ⟨⟩ a - b hb - - -
  exact h b hb

/-- Fields of which none is filled agree. -/
theorem agreesOnKind_of_forall_not {fields : List (String × Value)}
    (h : ∀ entry ∈ fields, ¬ entry.2.Filled) : (object fields).AgreesOnKind := by
  rintro _ ⟨⟩ a ha b - - - hfilled
  exact absurd hfilled (h a ha)

/-- A first field called `kind` that is not filled leaves the kind unsaid. -/
theorem not_saysKindFirst_of_head {entry : String × Value} {rest : List (String × Value)}
    (hname : namesKind entry = true) (h : ¬ entry.2.Filled) :
    ¬ (object (entry :: rest)).SaysKindFirst := by
  rintro ⟨fields, hfields, first, hfind, hfilled⟩
  obtain rfl := Value.object.inj hfields
  rw [List.find?_cons_of_pos hname] at hfind
  exact h (Option.some.inj hfind ▸ hfilled)

end Value

namespace Evaluator

variable {evaluator : Evaluator} {resolve : Resolve} {phase : Phase} {doc doc' : Document}
  {fault : KindFault}

/-! ## The check -/

/-- The test of a node is that of its value.  A text that is not empty, or an object with fields. -/
theorem describes_iff {n : Node} : describes n = true ↔ n.value.Filled := by
  constructor
  · intro h
    cases n with
    | scalar id s =>
      cases s with
      | string s => exact .string (by simpa [describes] using h)
      | null => cases h
      | boolean b => cases h
      | number m => cases h
    | array id items => cases h
    | object id fields =>
      refine .object fun hnil => ?_
      rw [Node.valueFields_eq_map, List.map_eq_nil_iff] at hnil
      rw [hnil] at h
      cases h
  · intro h
    cases n with
    | scalar id s =>
      cases h with
      | string hne => simpa [describes] using hne
    | array id items => cases h
    | object id fields =>
      cases h with
      | object hne =>
        rw [Node.valueFields_eq_map, ne_eq, List.map_eq_nil_iff] at hne
        simpa [describes] using hne

/-- The field that is checked is the first one called `kind`. -/
theorem kindField?_eq_find? (fields : List (String × Node)) :
    (kindField? fields).map (fun entry => (entry.1, entry.2.value))
      = (Node.valueFields fields).find? Value.namesKind := by
  induction fields with
  | nil => rfl
  | cons entry rest ih =>
    obtain ⟨name, n⟩ := entry
    rw [kindField?, Node.valueFields, List.find?_cons, Value.namesKind]
    cases Kind.equalIgnoringCase name "kind" with
    | true => rfl
    | false => exact ih

/-- A document passes the check when its first field called `kind` is filled.  The fault tells more
than the test does: whether there is no such field, and else what is wrong with it. -/
theorem kindFault?_eq_none_iff : kindFault? doc = none ↔ doc.toValue.SaysKindFirst := by
  rw [Document.toValue, kindFault?]
  cases doc.root with
  | scalar id s =>
    refine iff_of_false (Option.some_ne_none _) ?_
    rintro ⟨fields, h, -⟩
    cases h
  | array id items =>
    refine iff_of_false (Option.some_ne_none _) ?_
    rintro ⟨fields, h, -⟩
    cases h
  | object id fields =>
    -- The field that is looked at is the first one called `kind` among the values, too.
    have hfind := kindField?_eq_find? fields
    have hstated : (Node.object id fields).value.SaysKindFirst ↔
        ∃ entry, (Node.valueFields fields).find? Value.namesKind = some entry ∧ entry.2.Filled := by
      refine ⟨?_, fun h => ⟨_, rfl, h⟩⟩
      rintro ⟨_, h, hfirst⟩
      exact Value.object.inj h ▸ hfirst
    rw [hstated, ← hfind]
    cases hk : kindField? fields with
    | none => simp [hk]
    | some entry =>
      simp only [hk, Option.map_some, Option.some.injEq, exists_eq_left', ← describes_iff]
      cases describes entry.2 <;> simp

/-- A document whose first field called `kind` is not filled has a fault. -/
theorem exists_kindFault (h : ¬ doc.toValue.SaysKindFirst) : ∃ fault, kindFault? doc = some fault :=
  Option.ne_none_iff_exists'.mp fun hnone => h (kindFault?_eq_none_iff.mp hnone)

/-! ## Walks -/

/-- A document that fails the check is not walked. -/
theorem walkWith_of_fault (hcheck : evaluator.kindCheck = true)
    (hfault : kindFault? doc = some fault) :
    (evaluator.walkWith resolve phase doc).value = .error (.unknownKind fault) := by
  simp only [walkWith, Logged.value_bind, value_checkKind, hcheck, if_true, hfault,
    Logged.value_pure]

/-- A document that passes the check is walked as it is without the check. -/
theorem walkWith_of_no_fault (hnone : kindFault? doc = none) :
    evaluator.walkWith resolve phase doc
      = evaluator.withoutKindCheck.walkWith resolve phase doc := by
  have hchecked : evaluator.checkKind doc = evaluator.withoutKindCheck.checkKind doc := by
    rw [checkKind, checkKind, hnone, ite_self, ite_self]
  rw [walkWith, hchecked]
  rfl

/-- Values that are expanded apart are not checked, so a walk without the check expands them
alike. -/
theorem walk_withoutKindCheck : evaluator.withoutKindCheck.walk phase doc
    = evaluator.withoutKindCheck.walkWith evaluator.resolveFully phase doc := by
  have hresolve : evaluator.withoutKindCheck.resolveFully = evaluator.resolveFully :=
    resolve_withoutKindCheck evaluator _
  rw [walk, hresolve]

/-- A document with a fault is not walked in any phase. -/
theorem walk_of_fault (hcheck : evaluator.kindCheck = true) (hfault : kindFault? doc = some fault) :
    (evaluator.walk phase doc).value = .error (.unknownKind fault) :=
  walkWith_of_fault hcheck hfault

/-- A document that says its kind first is walked as it is without the check. -/
theorem walk_of_saysKindFirst (h : doc.toValue.SaysKindFirst) :
    evaluator.walk phase doc = evaluator.withoutKindCheck.walk phase doc := by
  rw [walk_withoutKindCheck, walk]
  exact walkWith_of_no_fault (kindFault?_eq_none_iff.mpr h)

/-! ## Who else reports an unknown kind -/

end Evaluator

/-- The error is not that of the check. -/
def MacroError.Elsewhere (e : MacroError) : Prop := ∀ fault, e ≠ .unknownKind fault

open MacroError (Elsewhere)

section

variable {σ : Type} {ok : MacroError → Prop} {visit : Visit σ MacroError}
  (hdocument : ∀ e, ok (.document e))
  (hvisit : ∀ state branch, Reports ok (visit state branch).value)

include hdocument hvisit

/-- The parts of a container report what the visitor does, if what is below them does.  It is the
step of the induction on the levels that the walk may go down. -/
theorem Document.reports_walkParts (doc : Document) {descend : Descent σ MacroError}
    (hdescend : ∀ branch state tracker, Reports ok (descend branch state tracker).value)
    (parent : Branch) (parts : List (Key × Nat)) (state : σ) (tracker : Tracker) :
    Reports ok (doc.walkParts .document visit descend parent parts state tracker).value := by
  have henter : ∀ key part state tracker,
      Reports ok (doc.enter .document visit descend parent key part state tracker).value := by
    intro key part state tracker
    rw [enter]
    cases doc.kind part with
    | error e => exact reports_error (hdocument e)
    | ok kind =>
      simp only
      cases tracker.child parent key part kind with
      | error e => exact reports_error (hdocument e)
      | ok found =>
        simp only [Logged.value_bind]
        cases hv : (visit state found.1).value with
        | error e => exact reports_error (hvisit state found.1 e hv)
        | ok state =>
          simp only
          split
          · exact hdescend _ _ _
          · exact reports_ok _
  -- By induction on the parts, the state and the paths issued so far going on from one to the next.
  induction parts generalizing state tracker with
  | nil => exact reports_ok _
  | cons entry rest ih =>
    obtain ⟨key, part⟩ := entry
    rw [walkParts, Logged.value_bind]
    cases he : (doc.enter .document visit descend parent key part state tracker).value with
    | error e => exact reports_error (henter key part state tracker e he)
    | ok found => exact ih found.1 found.2

/-- A walk reports what the visitor does, or that the document cannot be read.  This holds for any
visitor, and is used for the walks of a phase and for the one that looks for what is left over. -/
theorem Document.reports_walk (doc : Document) (state : σ) :
    Reports ok (doc.walk .document visit state).value := by
  have hwithin : ∀ levels branch state tracker,
      Reports ok (doc.walkWithin .document visit levels branch state tracker).value := by
    intro levels
    induction levels with
    | zero => exact fun branch _ _ => reports_error (hdocument _)
    | succ levels ih =>
      intro branch state tracker
      rw [walkWithin]
      cases doc.children branch.node with
      | error e => exact reports_error (hdocument e)
      | ok parts => exact reports_walkParts hdocument hvisit doc ih branch parts state tracker
  rw [walk, walkFromRoot]
  cases doc.kind doc.top with
  | error e => exact reports_error (hdocument e)
  | ok kind => exact hwithin _ _ _ _

end

/-- What a macro reports about its key is not an unknown kind. -/
theorem MacroError.Unmet.elsewhere {e : MacroError} (h : e.Unmet) : e.Elsewhere := by
  cases h <;> rintro _ ⟨⟩

/-- What a document reports is not an unknown kind. -/
theorem elsewhere_document (e : DocumentError) : Elsewhere (.document e) :=
  MacroError.Unmet.elsewhere (.document e)

/-- The error of modifiers names the one that fails. -/
theorem Pending.reports_applyAll_elsewhere (pending : Pending) (doc : Document) :
    Reports Elsewhere (pending.applyAll doc).value.1 := by
  intro e he
  have hpair : (pending.applyAll doc).value = (.error e, (pending.applyAll doc).value.2) := by
    rw [← he]
  obtain ⟨_, m, _, _, _, _, hm⟩ :=
    (Edit.value_each_error_iff Modifier.applyEach Modifier.apply rfl fun _ _ _ => rfl).mp
      (value_applyAll_error_iff.mp hpair)
  obtain ⟨_, _, _, _, _, _, hi⟩ := (Edit.value_each_error_iff m.applyInstructions
    (fun i => Edit.mapError (.modifierExecution m.text m.macroName) i.apply) rfl
      fun _ _ _ => rfl).mp hm
  obtain ⟨cause, -, rfl⟩ := Edit.value_mapError_error_iff.mp hi
  rintro _ ⟨⟩

/-- The macros report no unknown kind unless the values that they expand apart do. -/
def Registry.LeavesKind (registry : Registry) : Prop :=
  ∀ phase key invocation factory, registry.lookup phase key = some (invocation, factory) →
    ∀ (context : Macro.Context) (branch : Branch),
      (∀ v, Reports Elsewhere (context.resolve v).value) →
      Reports Elsewhere (factory context branch invocation).value

namespace Evaluator

variable {evaluator : Evaluator} {resolve : Resolve} {phase : Phase} {doc doc' : Document}
  {fault : KindFault}

/-- A visit reports no unknown kind when the macros and what they expand apart do not. -/
theorem reports_visit_elsewhere (hleaves : evaluator.registry.LeavesKind)
    (hresolve : ∀ v, Reports Elsewhere (resolve v).value) (pending : Pending) (branch : Branch) :
    Reports Elsewhere (evaluator.visit resolve phase doc pending branch).value :=
  reports_visit_of (by rintro _ _ _ ⟨⟩)
    (fun key invocation factory hl => hleaves phase key invocation factory hl _ branch hresolve)
    pending

/-- A walk without the check reports no unknown kind. -/
theorem reports_walkWith_elsewhere (hleaves : evaluator.registry.LeavesKind)
    (hresolve : ∀ v, Reports Elsewhere (resolve v).value) (phase : Phase) (doc : Document) :
    Reports Elsewhere (evaluator.withoutKindCheck.walkWith resolve phase doc).value := by
  have hpass : (evaluator.withoutKindCheck.checkKind doc).value = .ok () := rfl
  have hvisit : ∀ pending branch, Reports Elsewhere
      (evaluator.withoutKindCheck.visit resolve phase doc pending branch).value :=
    reports_visit_elsewhere hleaves hresolve
  have hwalk := Document.reports_walk elsewhere_document hvisit doc {}
  simp only [walkWith, Logged.value_bind, hpass]
  cases hw : (doc.walk .document (evaluator.withoutKindCheck.visit resolve phase doc) {}).value with
  | error e => exact reports_error (hwalk e hw)
  | ok found => exact reports_ok _

/-- The check of what is left over reports no unknown kind. -/
theorem reports_checkResidue_elsewhere (evaluator : Evaluator) (doc : Document) :
    Reports Elsewhere (evaluator.checkResidue doc).value := by
  have hresidue : Reports Elsewhere (evaluator.residue doc).value := by
    refine (Document.reports_walk elsewhere_document (fun state branch => ?_) doc []).map _
    split
    · exact reports_ok _
    · exact reports_ok _
  rw [checkResidue, Logged.value_bind]
  cases hr : (evaluator.residue doc).value with
  | error e => exact reports_error (hresidue e hr)
  | ok paths =>
    cases paths with
    | nil => exact reports_ok _
    | cons path rest => exact reports_error (by rintro _ ⟨⟩)

/-- A run without the check reports no unknown kind.  An error of the phases is one of a walk, of
its modifiers or of the limit, and none of these is an unknown kind. -/
theorem reports_runWith_elsewhere (hleaves : evaluator.registry.LeavesKind)
    (hresolve : ∀ v, Reports Elsewhere (resolve v).value) (whole : Bool) (doc : Document) :
    Reports Elsewhere (evaluator.withoutKindCheck.runWith resolve whole doc).value.1 := by
  obtain ⟨walks, hc⟩ := exists_course evaluator.withoutKindCheck resolve Phase.all doc
  rw [value_runWith]
  rcases hp : (evaluator.withoutKindCheck.runPhases resolve Phase.all doc).value
    with ⟨e | reports, d⟩
  · rw [hp] at hc
    refine reports_error ?_
    -- A phase stops in a walk, in its modifiers, or because it may not walk again.
    rcases hc.of_error (by decide) rfl with hstopped | ⟨p, -, rfl, -⟩
    · cases hstopped with
      | @walk last hlast hfound hdoc =>
        have hw := (hc.found last (List.mem_of_getLast? hlast)).2
        exact reports_walkWith_elsewhere hleaves hresolve _ _ e (hw ▸ hfound)
      | @modifiers last pending hlast hfound happlied =>
        exact pending.reports_applyAll_elsewhere _ e (congrArg Prod.fst happlied)
    · rintro _ ⟨⟩
  · simp only
    split
    · exact (reports_checkResidue_elsewhere _ d).map _
    · exact reports_ok _

/-- Values that are expanded apart are not checked. -/
theorem reports_resolve_elsewhere (hleaves : evaluator.registry.LeavesKind) (levels : Nat)
    (v : Value) : Reports Elsewhere (evaluator.resolve levels v).value := by
  induction levels generalizing v with
  | zero => exact reports_error (by rintro _ ⟨⟩)
  | succ levels ih =>
    rw [value_resolve_succ]
    exact (reports_runWith_elsewhere hleaves ih false _).map _

/-! ## The built-in macros -/

end Evaluator

/-- The built-in macros leave the kind to the check. -/
theorem Registry.leavesKind_builtin (space : String) (attributes : Attributes) :
    (builtin space attributes).LeavesKind := by
  intro phase key invocation factory hl context branch hresolve
  obtain ⟨r, hmem, -, rfl, -⟩ := (consistsOf_builtin space attributes).mem_of_lookup hl
  exact Macro.reports_builtin (fun _ he => he.elsewhere) (fun found _ _ => hresolve found.2) hmem

namespace Evaluator

variable {evaluator : Evaluator} {doc doc' : Document} {fault : KindFault}

/-! ## Runs -/

/-- A phase that may not walk at all was allowed no walk. -/
theorem maxWalks_of_walkBudget (h : evaluator.walkBudget = 0) :
    evaluator.settings.maxWalks = some 0 := by
  rw [walkBudget] at h
  cases hm : evaluator.settings.maxWalks with
  | none =>
    rw [hm] at h
    exact absurd h (by decide)
  | some limit =>
    rw [hm] at h
    exact congrArg some h

/-- A run over a document that fails the check changes nothing, and reports the fault if it may walk
at all. -/
theorem run_of_fault (hcheck : evaluator.kindCheck = true) (hfault : kindFault? doc = some fault) :
    ∃ e, (evaluator.run doc).value = (.error e, doc) ∧
      (evaluator.settings.maxWalks ≠ some 0 → e = .unknownKind fault) := by
  have hconverge : ∃ e, (evaluator.converge evaluator.resolveFully .directives evaluator.walkBudget
      0 0 doc).value = (.error e, doc) ∧
      (evaluator.settings.maxWalks ≠ some 0 → e = .unknownKind fault) := by
    cases hb : evaluator.walkBudget with
    | zero => exact ⟨_, rfl, fun hne => absurd (maxWalks_of_walkBudget hb) hne⟩
    | succ budget =>
      rw [value_converge_succ, walkWith_of_fault hcheck hfault]
      exact ⟨_, rfl, fun _ => rfl⟩
  obtain ⟨e, he, hwhich⟩ := hconverge
  refine ⟨e, ?_, hwhich⟩
  rw [run, value_runWith, Phase.all, runPhases, Edit.value_bind, he]

/-- A run that comes to its end has checked what it leaves. -/
theorem saysKindFirst_of_run (hcheck : evaluator.kindCheck = true) {report : Report}
    (h : (evaluator.run doc).value = (.ok report, doc')) : doc'.toValue.SaysKindFirst := by
  obtain ⟨reports, hphases⟩ := runPhases_of_runWith h
  obtain ⟨walks, hc⟩ := exists_course evaluator evaluator.resolveFully Phase.all doc
  rw [hphases] at hc
  -- The last walk is over the document that is left.
  obtain ⟨pending, hwalk, -⟩ := hc.quiet_of_ok (by decide) rfl .encoding rfl
  refine kindFault?_eq_none_iff.mp (Option.eq_none_iff_forall_ne_some.mpr fun fault hfault => ?_)
  rw [walkWith_of_fault hcheck hfault] at hwalk
  cases hwalk

/-- With the check on, a walk in any phase is refused with an unknown kind when the first field
called `kind`, in any case, is not filled or there is none, whatever else the root holds; and
otherwise it is the walk without the check.  So with macros that leave the kind to the check, a walk
reports an unknown kind exactly when the first field of that name is not filled, and exactly when
none is filled where the fields of that name agree.

A run that comes to its end leaves a document with such a field, and a run that is refused at its
first walk leaves the document as it is, slots included. -/
theorem walk_unknownKind (hcheck : evaluator.kindCheck = true) :
    (∀ phase doc,
      (¬ doc.toValue.SaysKindFirst →
        ∃ fault, (evaluator.walk phase doc).value = .error (.unknownKind fault)) ∧
      (doc.toValue.SaysKindFirst →
        evaluator.walk phase doc = evaluator.withoutKindCheck.walk phase doc)) ∧
    (evaluator.registry.LeavesKind → ∀ phase doc,
      ((∃ fault, (evaluator.walk phase doc).value = .error (.unknownKind fault)) ↔
        ¬ doc.toValue.SaysKindFirst) ∧
      (doc.toValue.AgreesOnKind →
        ((∃ fault, (evaluator.walk phase doc).value = .error (.unknownKind fault)) ↔
          ¬ doc.toValue.SaysKind))) ∧
    (∀ doc doc' report, (evaluator.run doc).value = (.ok report, doc') →
      doc'.toValue.SaysKindFirst ∧ doc'.toValue.SaysKind) ∧
    ∀ doc, ¬ doc.toValue.SaysKindFirst → ∃ e, (evaluator.run doc).value = (.error e, doc) ∧
      (evaluator.settings.maxWalks ≠ some 0 → ∃ fault, e = .unknownKind fault) := by
  -- A walk is refused at the check, before it begins.
  have hrefused : ∀ phase doc, ¬ doc.toValue.SaysKindFirst →
      ∃ fault, (evaluator.walk phase doc).value = .error (.unknownKind fault) := by
    intro phase doc h
    obtain ⟨fault, hfault⟩ := exists_kindFault h
    exact ⟨fault, walk_of_fault hcheck hfault⟩
  -- One that passes is a walk without the check, and that one reports no unknown kind.
  have hexact : evaluator.registry.LeavesKind → ∀ phase doc,
      (∃ fault, (evaluator.walk phase doc).value = .error (.unknownKind fault)) ↔
        ¬ doc.toValue.SaysKindFirst := by
    intro hleaves phase doc
    refine ⟨?_, hrefused phase doc⟩
    rintro ⟨fault, hfault⟩ hstated
    rw [walk_of_saysKindFirst hstated, walk_withoutKindCheck] at hfault
    exact reports_walkWith_elsewhere hleaves (reports_resolve_elsewhere hleaves _) phase doc _
      hfault fault rfl
  refine ⟨fun phase doc => ⟨hrefused phase doc, walk_of_saysKindFirst⟩,
    fun hleaves phase doc => ⟨hexact hleaves phase doc, fun hagrees => ?_⟩,
    fun doc doc' report h => ?_, fun doc h => ?_⟩
  · rw [← Value.saysKindFirst_iff hagrees]
    exact hexact hleaves phase doc
  · have hstated := saysKindFirst_of_run hcheck h
    exact ⟨hstated, hstated.saysKind⟩
  · obtain ⟨fault, hfault⟩ := exists_kindFault h
    obtain ⟨e, he, hwhich⟩ := run_of_fault hcheck hfault
    exact ⟨e, he, fun hne => ⟨fault, hwhich hne⟩⟩

/-- A later spelling is overlooked when an earlier one is empty. -/
theorem walk_overlooks_later_kind :
    let doc := Document.ofValue (.object [("KIND", .string ""), ("kind", .string "Pod")])
    let evaluator := builtin "kubegen" [] {} true
    doc.toValue.SaysKind ∧
      ∃ fault, (evaluator.walk .directives doc).value = .error (.unknownKind fault) := by
  intro doc evaluator
  have hordered : (Value.object [("KIND", .string ""), ("kind", .string "Pod")]).Ordered :=
    ⟨List.pairwise_pair.mpr (by decide), trivial, trivial, trivial⟩
  have hvalue : doc.toValue = _ := Document.toValue_ofValue hordered
  have hearlier : Value.namesKind ("KIND", .string "") = true :=
    Kind.equalIgnoringCase_iff.mpr (by decide)
  have hlater : Value.namesKind ("kind", .string "Pod") = true :=
    Kind.equalIgnoringCase_iff.mpr (by decide)
  have hfirst : ¬ doc.toValue.SaysKindFirst := by
    rw [hvalue]
    exact Value.not_saysKindFirst_of_head hearlier fun | .string hne => hne rfl
  have hstated : doc.toValue.SaysKind := by
    rw [hvalue]
    exact ⟨_, rfl, ("kind", .string "Pod"), by simp, hlater, .string (by decide)⟩
  obtain ⟨fault, hfault⟩ := exists_kindFault hfirst
  exact ⟨hstated, fault, walk_of_fault rfl hfault⟩

/-- Two spellings of the field that are both empty are no kind, and two that are both filled are
one: a walk is refused in the first case, where the run leaves the document as it is, and in the
second it is not. -/
theorem walk_unknownKind_of_empty :
    let evaluator := builtin "kubegen" [] {} true
    let blank := Document.ofValue (.object [("KIND", .string ""), ("kind", .object [])])
    let named := Document.ofValue (.object [("KIND", .string "Pod"), ("kind", .string "Job")])
    (blank.toValue.AgreesOnKind ∧
      (∃ fault, (evaluator.walk .scalars blank).value = .error (.unknownKind fault)) ∧
      (evaluator.run blank).value.2 = blank) ∧
    named.toValue.AgreesOnKind ∧
      ¬ ∃ fault, (evaluator.walk .scalars named).value = .error (.unknownKind fault) := by
  intro evaluator blank named
  have hblank : blank.toValue = .object [("KIND", .string ""), ("kind", .object [])] :=
    Document.toValue_ofValue
      ⟨List.pairwise_pair.mpr (by decide), trivial, ⟨List.Pairwise.nil, trivial⟩, trivial⟩
  have hnamed : named.toValue = .object [("KIND", .string "Pod"), ("kind", .string "Job")] :=
    Document.toValue_ofValue ⟨List.pairwise_pair.mpr (by decide), trivial, trivial, trivial⟩
  -- Fields that are all empty agree, as do fields that are all filled.
  have hnone : ∀ entry ∈ [("KIND", Value.string ""), ("kind", .object [])], ¬ entry.2.Filled :=
    List.forall_mem_cons.mpr ⟨fun | .string hne => hne rfl,
      List.forall_mem_singleton.mpr fun | .object hne => hne rfl⟩
  have hall : ∀ entry ∈ [("KIND", Value.string "Pod"), ("kind", .string "Job")], entry.2.Filled :=
    List.forall_mem_cons.mpr ⟨.string (by decide),
      List.forall_mem_singleton.mpr (.string (by decide))⟩
  have hagrees : blank.toValue.AgreesOnKind := hblank ▸ Value.agreesOnKind_of_forall_not hnone
  have hagrees' : named.toValue.AgreesOnKind := hnamed ▸ Value.agreesOnKind_of_forall hall
  have hunstated : ¬ blank.toValue.SaysKind := by
    rw [hblank]
    rintro ⟨_, ⟨⟩, entry, hmem, -, hfilled⟩
    exact hnone entry hmem hfilled
  have hstated : named.toValue.SaysKind := by
    rw [hnamed]
    exact ⟨_, rfl, ("KIND", .string "Pod"), List.mem_cons_self,
      Kind.equalIgnoringCase_iff.mpr (by decide), .string (by decide)⟩
  -- The built-in macros leave the kind to the check, so the rule holds in both directions.
  obtain ⟨-, hexact, -, hrun⟩ := @walk_unknownKind evaluator rfl
  have hleaves := Registry.leavesKind_builtin evaluator.settings.space []
  obtain ⟨e, he, -⟩ := hrun blank fun hfirst => hunstated hfirst.saysKind
  exact ⟨⟨hagrees, ((hexact hleaves .scalars blank).2 hagrees).mpr hunstated, congrArg Prod.snd he⟩,
    hagrees', fun hrefused => ((hexact hleaves .scalars named).2 hagrees').mp hrefused hstated⟩

end Evaluator

end Expansion
