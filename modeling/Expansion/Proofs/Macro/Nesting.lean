import Expansion.Proofs.Macro.Accounts
import Expansion.Proofs.Macro.Reports
import Expansion.Proofs.Macro.Turn
import Expansion.Proofs.Macro.Wrapper
import Expansion.Proofs.Value.Holding

/-!
  How deep lookups nest.

  A lookup of a composite has the value of its attribute expanded apart, in a run of its own, one
  level deeper.  Such a run may come to further lookups, and so on: `Nests` is a chain of lookups
  each of which is met in the run that expands the value of the one before.  No other error says
  that the nesting is too deep, so a walk stops with that error exactly at a lookup whose value
  cannot be expanded for it (`walk_tooDeep_iff`), and a run in one of its walks (`run_tooDeep_iff`).
  By induction on the levels, a run fails for the limit exactly when a chain goes beyond it
  (`tooDeep_iff_nests`).

  Attributes can be ranked when every lookup in a value is of an attribute of a lower rank.  The
  modifiers of a run bring no lookup in and change the text of none (`everyField_of_applyAll`), so
  the run over the value of an attribute comes to lookups of lower ranks only, and a chain is no
  longer than the highest rank (`Nests.length_le`).
-/

namespace Expansion

/-! ## Macros that are too deep -/

/-- What is made of an answer has the errors of the answer. -/
theorem eq_error_of_map {α β ε : Type} {r : Except ε α} {f : α → β} {e : ε}
    (h : r.map f = .error e) : r = .error e := by
  cases r with
  | error e' => exact congrArg Except.error (Except.error.inj h)
  | ok a => cases h

namespace Macro

variable {attributes : Attributes} {context : Context} {branch : Branch} {invocation : Invocation}
  {r : Registered} {e : MacroError}

/-- The macros that give composites are lookups. -/
theorem factory_of_container (hr : r ∈ builtins attributes)
    (hc : r.definition.returnType.isContainer = true) : r.factory = lookup attributes := by
  simp only [builtins, List.mem_cons, List.not_mem_nil, or_false] at hr
  rcases hr with rfl | rfl | rfl | rfl | rfl | rfl | rfl | rfl | rfl
  · cases hc
  · rfl
  · rfl
  · rfl
  · rfl
  · rfl
  · cases hc
  · cases hc
  · cases hc

/-- A macro is too deep exactly when it is a lookup of a composite and the expansion of the value
that it finds is.  Nothing else that a macro reports is of this sort, so the error must come from
the expansion apart. -/
theorem factory_tooDeep_iff (hr : r ∈ builtins attributes)
    (hd : r.definition = invocation.definition) (he : e.TooDeep) :
    (r.factory context branch invocation).value = .error e ↔
      invocation.definition.returnType.isContainer = true ∧
        ∃ found, lookupAttribute attributes context branch invocation = .ok found ∧
          (context.resolve found.2).value = .error e := by
  constructor
  · intro h
    have hreports : Reports (fun e => e.TooDeep →
        invocation.definition.returnType.isContainer = true ∧
          ∃ found, lookupAttribute attributes context branch invocation = .ok found ∧
            (context.resolve found.2).value = .error e)
        (r.factory context branch invocation).value := by
      refine reports_builtin ?_ ?_ hr
      · exact fun e' hunmet hdeep => absurd hdeep hunmet.direct.not_tooDeep
      · exact fun found hc hfound e' he' _ => ⟨hc, found, hfound, he'⟩
    exact hreports e h he
  · rintro ⟨hc, found, hfound, hresolve⟩
    rw [factory_of_container hr (hd ▸ hc), value_lookup, hfound]
    show modifierFor context branch invocation found.2 (context.resolve found.2).value = _
    rw [modifierFor, if_pos hc, hresolve]
    rfl

end Macro

namespace Evaluator

variable {evaluator : Evaluator} {resolve : Resolve} {phase : Phase} {phases : List Phase}
  {doc doc' : Document} {ws : List Walk} {w : Walk} {e : MacroError}

/-- The documents that a run walks are in shape. -/
theorem Course.inShape {out : Except MacroError (List PhaseReport) × Document}
    (h : Course evaluator resolve Phase.all doc ws out) (hdoc : doc.InShape)
    (hev : evaluator.Rewriting resolve) : ∀ w ∈ ws, w.doc.InShape := by
  refine h.forall_doc hdoc fun phase d d' pending n hd hw ha => ?_
  exact ((Pending.mirrors_applyAll (collected_of_walk hd hev hw).ordered).of_ok hd ha).1

/-! ## Lookups of composites -/

section

variable (evaluator : Evaluator) (attributes : Attributes) (resolve : Resolve)

/-- At a branch a lookup of a composite finds the attribute `name` with the value `v`. -/
def LooksUp (phase : Phase) (doc : Document) (branch : Branch) (name : String) (v : Value) :
    Prop :=
  ∃ key invocation factory, branch.fieldName? = some key ∧
    evaluator.registry.lookup phase key = some (invocation, factory) ∧
    invocation.definition.returnType.isContainer = true ∧
    Macro.lookupAttribute attributes ⟨doc, phase, evaluator.registry.space, resolve⟩ branch
      invocation = .ok (name, v)

/-- A walk over a document comes to a branch where a lookup of a composite finds the attribute. -/
def WalkLooksUp (phase : Phase) (doc : Document) (name : String) (v : Value) : Prop :=
  (evaluator.checkKind doc).value = .ok () ∧
    ∃ before branch after pending, doc.shown = before ++ branch :: after ∧
      visitAll (evaluator.visit resolve phase doc) before {} = .ok pending ∧
      evaluator.LooksUp attributes resolve phase doc branch name v

/-- A run over a document has a walk that comes to a lookup of a composite, which finds the
attribute. -/
def RunLooksUp (doc : Document) (name : String) (v : Value) : Prop :=
  ∃ walks, Course evaluator resolve Phase.all doc walks
      (evaluator.runPhases resolve Phase.all doc).value ∧
    ∃ w ∈ walks, evaluator.WalkLooksUp attributes resolve w.phase w.doc name v

end

/-- Lookups of composites, each met in the run that expands the value of the one before, from the
run over a document on.  With no level left a lookup is refused. -/
inductive Nests (attributes : Attributes) :
    Evaluator → (levels : Nat) → Document → List String → Prop
  | nil {evaluator : Evaluator} {levels : Nat} {doc : Document} :
    Nests attributes evaluator levels doc []
  | refused {evaluator : Evaluator} {doc : Document} {name : String} {v : Value}
    (hl : evaluator.RunLooksUp attributes (evaluator.resolve 0) doc name v) :
    Nests attributes evaluator 0 doc [name]
  | enter {evaluator : Evaluator} {levels : Nat} {doc : Document} {name : String} {v : Value}
    {names : List String}
    (hl : evaluator.RunLooksUp attributes (evaluator.resolve (levels + 1)) doc name v)
    (hn : Nests attributes evaluator.withoutKindCheck levels (Document.ofValue v) names) :
    Nests attributes evaluator (levels + 1) doc (name :: names)

variable {space : String} {attributes : Attributes} {settings : Settings} {kindCheck : Bool}
  {name : String} {v : Value} {pending : Pending} {branch : Branch} {levels : Nat}

/-- What a lookup finds is the value of an attribute. -/
theorem RunLooksUp.exists_find?
    (h : (builtin space attributes settings kindCheck).RunLooksUp attributes resolve doc name v) :
    ∃ kind, Fields.find? name attributes = some ⟨kind, v⟩ := by
  obtain ⟨_, -, _, -, -, _, _, _, _, -, -, _, invocation, _, -, -, -, hfound⟩ := h
  have hlookup := Macro.lookup_of_lookupAttribute hfound
  exact ⟨_, (Attributes.lookup_eq_ok_iff.mp hlookup).1⟩

/-! ## When a run is too deep -/

/-- A visit is too deep exactly at a lookup whose value is.  At a key that calls no macro there is
at most an unknown macro to report. -/
theorem visit_tooDeep_iff (he : e.TooDeep) :
    ((builtin space attributes settings kindCheck).visit resolve phase doc pending branch).value
        = .error e ↔
      ∃ name v, (builtin space attributes settings kindCheck).LooksUp attributes resolve phase doc
        branch name v ∧ (resolve v).value = .error e := by
  rw [value_visit]
  constructor
  · intro h
    cases hk : branch.fieldName? with
    | none =>
      rw [hk] at h
      cases h
    | some key =>
      rw [hk] at h
      simp only at h
      cases hl : (builtin space attributes settings kindCheck).registry.lookup phase key with
      | none =>
        -- A key that is passed over is unknown, not too deep.
        rw [hl] at h
        have hdirect : Reports MacroError.Direct
            ((builtin space attributes settings kindCheck).passOver phase branch key).value := by
          rw [value_passOver]
          split
          · exact reports_error trivial
          · exact reports_ok _
        simp only at h
        split at h
        · exact absurd he ((hdirect.map _) e h).not_tooDeep
        · cases h
      | some found =>
        obtain ⟨invocation, factory⟩ := found
        rw [hl] at h
        obtain ⟨r, hr, hd, rfl, -⟩ :=
          (Registry.consistsOf_builtin space attributes).mem_of_lookup hl
        obtain ⟨hc, found, hfound, hresolve⟩ :=
          (Macro.factory_tooDeep_iff hr hd he).mp (eq_error_of_map h)
        exact ⟨found.1, found.2, ⟨key, invocation, r.factory, hk, hl, hc, hfound⟩, hresolve⟩
  · rintro ⟨name, v, ⟨key, invocation, factory, hk, hl, hc, hfound⟩, hresolve⟩
    obtain ⟨r, hr, hd, rfl, -⟩ := (Registry.consistsOf_builtin space attributes).mem_of_lookup hl
    have hf := (Macro.factory_tooDeep_iff hr hd he).mpr ⟨hc, (name, v), hfound, hresolve⟩
    rw [hk]
    simp only [hl, hf]
    rfl

/-- A walk is too deep exactly when it comes to a lookup whose value is.  Walks stop at the first
branch that reports an error; the branches before it were visited without one. -/
theorem walk_tooDeep_iff (h : doc.InShape) (he : e.TooDeep) :
    ((builtin space attributes settings kindCheck).walkWith resolve phase doc).value = .error e ↔
      ∃ name v, (builtin space attributes settings kindCheck).WalkLooksUp attributes resolve phase
        doc name v ∧ (resolve v).value = .error e := by
  rw [value_walkWith _ _ _ h]
  cases hkind : ((builtin space attributes settings kindCheck).checkKind doc).value with
  -- The check of the kind has other errors.
  | error e' =>
    constructor
    · intro h
      obtain rfl := Except.error.inj h
      have hdirect : Reports MacroError.Direct
          ((builtin space attributes settings kindCheck).checkKind doc).value := by
        rw [value_checkKind]
        split
        · exact reports_ok _
        · exact reports_error trivial
      exact absurd he (hdirect _ hkind).not_tooDeep
    · rintro ⟨name, v, ⟨hok, -⟩, -⟩
      cases hkind.symm.trans hok
  | ok u =>
    show visitAll _ _ _ = _ ↔ _
    rw [visitAll_eq_error_iff]
    constructor
    · rintro ⟨before, branch, after, s, hs, hbefore, hv⟩
      obtain ⟨name, v, hl, hresolve⟩ := (visit_tooDeep_iff he).mp hv
      exact ⟨name, v, ⟨hkind, before, branch, after, s, hs, hbefore, hl⟩, hresolve⟩
    · rintro ⟨name, v, ⟨-, before, branch, after, s, hs, hbefore, hl⟩, hresolve⟩
      exact ⟨before, branch, after, s, hs, hbefore,
        (visit_tooDeep_iff he).mpr ⟨name, v, hl, hresolve⟩⟩

/-- A run is too deep exactly when one of its walks comes to a lookup whose value is.  Errors of
modifiers and of the limit of walks are of other sorts, and what is left over is not looked at after
an error. -/
theorem run_tooDeep_iff (h : doc.InShape)
    (hev : (builtin space attributes settings kindCheck).Rewriting resolve) (he : e.TooDeep)
    (whole : Bool) :
    (∃ doc', ((builtin space attributes settings kindCheck).runWith resolve whole doc).value
        = (.error e, doc')) ↔
      ∃ name v, (builtin space attributes settings kindCheck).RunLooksUp attributes resolve doc
        name v ∧ (resolve v).value = .error e := by
  rw [value_runWith_of_rewriting h hev]
  constructor
  · rintro ⟨doc', hrun⟩
    obtain ⟨ws, hc⟩ := exists_course (builtin space attributes settings kindCheck) resolve Phase.all
      doc
    obtain ⟨hout, rfl⟩ := Prod.mk.inj hrun
    rcases hp : ((builtin space attributes settings kindCheck).runPhases resolve Phase.all
      doc).value with ⟨e' | reports, d⟩
    · rw [hp] at hout
      obtain rfl := Except.error.inj hout
      -- Of the ways in which phases stop, only a walk can be too deep.
      rcases (hp ▸ hc).of_error (by decide) rfl with hstopped | ⟨p, -, rfl, -⟩
      · cases hstopped with
        | @walk last hlast hfound =>
          have hin : last ∈ ws := List.mem_of_getLast? hlast
          have hwalk := (hc.found last hin).2.symm.trans hfound
          obtain ⟨name, v, hl, hresolve⟩ :=
            (walk_tooDeep_iff (hc.inShape h hev last hin) he).mp hwalk
          exact ⟨name, v, ⟨ws, hc, last, hin, hl⟩, hresolve⟩
        | @modifiers last pending _ _ happlied =>
          have hdirect := pending.reports_applyAll last.doc e' (congrArg Prod.fst happlied)
          exact absurd he hdirect.not_tooDeep
      · obtain ⟨limit, hlimit⟩ := he
        cases hlimit
    · rw [hp] at hout
      cases hout
  · rintro ⟨name, v, ⟨ws, hc, w, hw, hl⟩, hresolve⟩
    have hfound : w.found = .error e := by
      rw [(hc.found w hw).2]
      exact (walk_tooDeep_iff (hc.inShape h hev w hw) he).mpr ⟨name, v, hl, hresolve⟩
    refine ⟨w.doc, ?_⟩
    rw [hc.eq_of_found_error hw hfound]
    rfl

/-- The expansion of a value apart fails as the run over it does. -/
theorem value_resolve_succ_eq_error_iff (levels : Nat) (v : Value) :
    ((builtin space attributes settings kindCheck).resolve (levels + 1) v).value = .error e ↔
      ∃ doc', ((builtin space attributes settings false).runWith
        ((builtin space attributes settings false).resolve levels) false
        (Document.ofValue v)).value = (.error e, doc') := by
  have hsame : (builtin space attributes settings kindCheck).resolve levels
      = (builtin space attributes settings false).resolve levels :=
    (resolve_withoutKindCheck (builtin space attributes settings kindCheck) levels).symm
  rw [value_resolve_succ, hsame]
  show ((builtin space attributes settings false).runWith _ false _).value.1.map _ = _ ↔ _
  rcases ((builtin space attributes settings false).runWith
    ((builtin space attributes settings false).resolve levels) false
    (Document.ofValue v)).value with ⟨e' | report, d⟩
  · simp [Except.map]
  · simp [Except.map]

/-- A run with so many levels is too deep exactly when a chain of lookups takes more.  The error
tells the limit.  By induction on the levels, for all documents: the run over the value that a
lookup finds has one level less, and the chain from there on is shorter by one. -/
theorem tooDeep_iff_nests (ha : attributes.Ordered) (he : e.TooDeep) (levels : Nat)
    (h : doc.InShape) (whole : Bool) :
    (∃ doc', ((builtin space attributes settings kindCheck).runWith
        ((builtin space attributes settings kindCheck).resolve levels) whole doc).value
          = (.error e, doc')) ↔
      e = .lookupDepthExceeded settings.maxLookupDepth ∧
        ∃ names, Nests attributes (builtin space attributes settings kindCheck) levels doc names ∧
          levels < names.length := by
  rw [run_tooDeep_iff h (rewriting_resolve ha levels) he]
  induction levels generalizing doc kindCheck whole with
  | zero =>
    constructor
    · rintro ⟨name, v, hl, hresolve⟩
      exact ⟨(Except.error.inj hresolve).symm, [name], .refused hl, Nat.zero_lt_one⟩
    · rintro ⟨rfl, names, hn, hlen⟩
      cases hn with
      | nil => cases hlen
      | @refused _ _ name v hl => exact ⟨name, v, hl, rfl⟩
  | succ levels ih =>
    -- The run over the value that is found has one level less, and checks no kind.
    have hnested : ∀ {name : String} {v : Value},
        (builtin space attributes settings kindCheck).RunLooksUp attributes
          ((builtin space attributes settings kindCheck).resolve (levels + 1)) doc name v →
        (((builtin space attributes settings kindCheck).resolve (levels + 1) v).value = .error e ↔
          e = .lookupDepthExceeded settings.maxLookupDepth ∧
            ∃ names, Nests attributes (builtin space attributes settings false) levels
              (Document.ofValue v) names ∧ levels < names.length) := by
      intro name v hl
      obtain ⟨kind, hfind⟩ := hl.exists_find?
      have hv : v.Ordered := ha _ (Fields.mem_of_find? hfind)
      have hshape : (Document.ofValue v).InShape := ⟨_, Shape.ofValue hv⟩
      rw [value_resolve_succ_eq_error_iff,
        run_tooDeep_iff hshape (rewriting_resolve ha levels) he]
      exact ih hshape false
    constructor
    · rintro ⟨name, v, hl, hresolve⟩
      obtain ⟨hlimit, names, hn, hlen⟩ := (hnested hl).mp hresolve
      exact ⟨hlimit, name :: names, .enter hl hn, Nat.succ_lt_succ hlen⟩
    · rintro ⟨hlimit, names, hn, hlen⟩
      cases hn with
      | nil => cases hlen
      | @enter _ _ _ name v names hl hn =>
        have hlen : levels < names.length := Nat.lt_of_succ_lt_succ hlen
        exact ⟨name, v, hl, (hnested hl).mpr ⟨hlimit, names, hn, hlen⟩⟩

end Evaluator

/-! ## Ranks -/

namespace Attributes

/-- If the key calls a lookup of a composite, it holds the name of an attribute with a rank below
the bound, or of none. -/
def Descends (attributes : Attributes) (space : String) (rank : String → Nat) (bound : Nat)
    (key : String) (u : Value) : Prop :=
  ∀ found, (Registry.builtin space attributes).lookup .composites key = some found →
    found.1.definition.returnType.isContainer = true →
      ∃ s, u = .string s ∧ ∀ a, Fields.find? s attributes = some a → rank s < bound

/-- The attributes have ranks below the limit, and every lookup of a composite in the value of one
is of an attribute of a lower rank. -/
structure Ranked (attributes : Attributes) (space : String) (limit : Nat) (rank : String → Nat) :
    Prop where
  below : ∀ name a, Fields.find? name attributes = some a → rank name < limit
  descends : ∀ name a, Fields.find? name attributes = some a →
    a.value.EveryField (attributes.Descends space rank (rank name))

variable {attributes : Attributes} {space : String} {rank : String → Nat} {bound : Nat}
  {key : String}

/-- A lookup holds no container. -/
theorem blind_descends : Value.Blind (attributes.Descends space rank bound) := by
  intro name u hcontainer h v found hl hc
  obtain ⟨s, rfl, -⟩ := h found hl hc
  cases hcontainer

/-- A key that calls no macro may hold anything. -/
theorem free_of_idle (h : (Registry.builtin space attributes).Idle key) :
    Value.Free (attributes.Descends space rank bound) key := by
  intro u found hl
  rw [h .composites] at hl
  cases hl

end Attributes

/-! ## What modifiers leave of the fields -/

section

variable {good : String → Prop} {ok : String → Value → Prop} {v v' : Value}

open Value (Blind Free)

/-- Rewriting a wrapper that may hold anything, with names that may, keeps what fields hold.  What
is written at the wrapper goes into the field that holds it, if there is one; so that field must be
free to hold anything. -/
theorem Instruction.Rewrite.everyField {wrapper : Path} {name : String} {is : List Instruction}
    (hr : Rewrite good wrapper name is) (hgood : ∀ name, good name → Free ok name)
    (hb : Blind ok) (hw : ∀ before k, wrapper = before ++ [.field k] → Free ok k)
    (hv : v.Ordered) (h : v.EveryField ok) (he : effects? is v = some v') : v'.EveryField ok := by
  cases hr with
  | @replace x _ hx =>
    obtain ⟨u, hu, he⟩ := Option.bind_eq_some_iff.mp he
    obtain rfl := Option.some.inj he
    exact h.write? hb (hx.everyField hgood) hw hu
  -- The key goes, then a value comes in whose names may hold anything.
  | @merge x ho hx =>
    obtain ⟨u, hu, he⟩ := Option.bind_eq_some_iff.mp he
    obtain ⟨u', hu', he⟩ := Option.bind_eq_some_iff.mp he
    obtain rfl := Option.some.inj he
    have hsource : x.EveryField fun name _ => Free ok name :=
      hx.everyField fun name hname _ => hgood name hname
    exact (h.remove? hv hb hu).overlay? hb ho hsource hw hu'
  | encode form =>
    obtain ⟨u, hu, he⟩ := Option.bind_eq_some_iff.mp he
    obtain rfl := Option.some.inj he
    obtain ⟨x, -, hu⟩ := Option.bind_eq_some_iff.mp hu
    obtain ⟨text, -, hu⟩ := Option.bind_eq_some_iff.mp hu
    exact h.write? hb (Value.everyField_scalar _) hw hu
  | remove =>
    obtain ⟨u, hu, he⟩ := Option.bind_eq_some_iff.mp he
    obtain rfl := Option.some.inj he
    exact h.remove? hv hb hu

/-- Modifiers that do so keep what fields hold, one after the other. -/
theorem Modifier.everyField_of_effectEach? {ms : List Modifier}
    (hm : ∀ m ∈ ms, m.Rewrites good) (hgood : ∀ name, good name → Free ok name) (hb : Blind ok)
    (hw : ∀ m ∈ ms, ∀ before k, m.wrapper = before ++ [.field k] → Free ok k)
    (hv : v.Ordered) (h : v.EveryField ok) (he : effectEach? ms v = some v') :
    v'.EveryField ok := by
  induction ms generalizing v with
  | nil =>
    obtain rfl := Option.some.inj he
    exact h
  | cons m rest ih =>
    obtain ⟨hfirst, hm⟩ := List.forall_mem_cons.mp hm
    obtain ⟨hown, hw⟩ := List.forall_mem_cons.mp hw
    obtain ⟨u, hu, he⟩ := Option.bind_eq_some_iff.mp he
    have hordered : u.Ordered := Instruction.ordered_of_effects? hfirst.ordered hv hu
    obtain ⟨wrapper, name, hpath, hr⟩ := hfirst
    have hkept := hr.everyField hgood hb (Modifier.wrapper_of_path hpath ▸ hown) hv h hu
    exact ih hm hw hordered hkept he

end

namespace Evaluator

variable {evaluator : Evaluator} {resolve : Resolve} {phase : Phase} {doc doc' : Document}
  {pending : Pending} {space : String} {attributes : Attributes} {settings : Settings}
  {kindCheck : Bool} {levels bound : Nat} {rank : String → Nat} {name : String} {v x : Value}

/-- The modifiers of a walk bring no macro key in, and their wrappers are objects, so they keep what
fields hold.  A field that may hold a container may hold anything (`Value.Blind`), so nothing is
asked of what is written there. -/
theorem everyField_of_applyAll {ok : String → Value → Prop} (h : doc.InShape)
    (hev : evaluator.Rewriting resolve)
    (hidle : ∀ key, evaluator.registry.Idle key → Value.Free ok key) (hb : Value.Blind ok)
    (hw : (evaluator.walkWith resolve phase doc).value = .ok pending) {n : Nat}
    (ha : (pending.applyAll doc).value = (.ok n, doc')) (hv : doc.toValue.EveryField ok) :
    doc'.InShape ∧ doc'.toValue.EveryField ok := by
  have hc := collected_of_walk h hev hw
  obtain ⟨hshape, heffect⟩ := (Pending.mirrors_applyAll hc.ordered).of_ok h ha
  refine ⟨hshape, Modifier.everyField_of_effectEach?
    (fun m hm => hc.rewrites m (Pending.mem_inOrder.mp hm)) hidle hb (fun m hm => ?_) h.ordered hv
    heffect⟩
  -- The key of the modifier is shown, so its wrapper has a part.
  obtain ⟨branch, hbranch, hpath, key, hkey, -⟩ := hc.sound m (Pending.mem_inOrder.mp hm)
  obtain ⟨w, u, hbpath, hu, -⟩ := h.get?_of_fieldName? hbranch hkey
  rw [hbpath, Value.get?_append] at hu
  obtain ⟨c, hc, hu⟩ := Option.bind_eq_some_iff.mp hu
  obtain ⟨y, hy, -⟩ := Option.bind_eq_some_iff.mp hu
  rw [Modifier.wrapper_of_path (hpath.trans hbpath)]
  exact hv.free_of_get? hb hc (Value.isContainer_of_part? hy)

/-- At a lookup stands the name of the attribute that it finds. -/
theorem LooksUp.exists_field (h : doc.InShape) {branch : Branch} (hb : branch ∈ doc.shown)
    (hl : (builtin space attributes settings kindCheck).LooksUp attributes resolve phase doc branch
      name x) :
    ∃ before key found, doc.toValue.get? (before ++ [.field key]) = some (.string name) ∧
      (Registry.builtin space attributes).lookup .composites key = some found ∧
      found.1.definition.returnType.isContainer = true := by
  obtain ⟨key, invocation, factory, hkey, hcalls, hc, hfound⟩ := hl
  obtain ⟨w, u, hpath, hu, hkind⟩ := h.get?_of_fieldName? hb hkey
  obtain rfl : phase = .composites := Macro.phase_of_container hcalls hc
  obtain rfl := Macro.eq_string_of_lookupAttribute h hu hkind hfound
  exact ⟨w, key, _, hpath ▸ hu, hcalls, hc⟩

/-- The run over a value whose lookups descend comes to lookups of lower ranks only.  In all
documents that the run walks, the lookups hold what they held in the value, or are gone. -/
theorem RunLooksUp.rank_lt (ha : attributes.Ordered) (hv : v.Ordered)
    (hd : v.EveryField (attributes.Descends space rank bound))
    (hl : (builtin space attributes settings kindCheck).RunLooksUp attributes
      ((builtin space attributes settings kindCheck).resolve levels) (Document.ofValue v) name x) :
    rank name < bound := by
  obtain ⟨kind, hfind⟩ := hl.exists_find?
  obtain ⟨walks, hcourse, w, hw, -, before, branch, after, -, hshown, -, hl⟩ := hl
  have hev : (builtin space attributes settings kindCheck).Rewriting _ :=
    rewriting_resolve ha levels
  have hkept : ∀ w ∈ walks, w.doc.InShape ∧
      w.doc.toValue.EveryField (attributes.Descends space rank bound) := by
    refine hcourse.forall_doc ⟨⟨_, Shape.ofValue hv⟩, ?_⟩ fun phase d d' pending n hd hw ha =>
      everyField_of_applyAll hd.1 hev (fun _ => Attributes.free_of_idle) Attributes.blind_descends
        hw ha hd.2
    rwa [Document.toValue_ofValue hv]
  obtain ⟨hshape, hfields⟩ := hkept w hw
  have hbranch : branch ∈ w.doc.shown := hshown ▸ List.mem_append_right _ List.mem_cons_self
  obtain ⟨before, key, found, hget, hcalls, hc⟩ := hl.exists_field hshape hbranch
  obtain ⟨s, hs, hrank⟩ := hfields before key _ hget found hcalls hc
  cases hs
  exact hrank _ hfind

/-- A chain has no more lookups than there are levels, if those that the run comes to have lower
ranks.  By induction on the levels: the run over the value of an attribute comes to lower ranks than
that of the attribute. -/
theorem Nests.length_le {limit : Nat} (ha : attributes.Ordered)
    (hranked : attributes.Ranked space limit rank) {names : List String}
    (hn : Nests attributes (builtin space attributes settings kindCheck) levels doc names)
    (hlow : ∀ name v, (builtin space attributes settings kindCheck).RunLooksUp attributes
      ((builtin space attributes settings kindCheck).resolve levels) doc name v →
      rank name < levels) : names.length ≤ levels := by
  induction levels generalizing doc kindCheck names with
  | zero =>
    cases hn with
    | nil => exact Nat.le_refl 0
    | refused hl => exact absurd (hlow _ _ hl) (Nat.not_lt_zero _)
  | succ levels ih =>
    cases hn with
    | nil => exact Nat.zero_le _
    | @enter _ _ _ name v names hl hn =>
      obtain ⟨kind, hfind⟩ := hl.exists_find?
      have hv : v.Ordered := ha _ (Fields.mem_of_find? hfind)
      have hrank : rank name ≤ levels := Nat.le_of_lt_succ (hlow name v hl)
      refine Nat.succ_le_succ (ih hn fun other y hother => ?_)
      exact Nat.lt_of_lt_of_le (hother.rank_lt ha hv (hranked.descends name _ hfind)) hrank

/-- The limit of levels is exact.  A run fails for it exactly when a chain of lookups, each met in
the run that expands the value of the one before, is longer than the limit.  It never does when the
attributes can be ranked below the limit so that the lookups in their values are of lower ranks.
And in a run that succeeds no chain is longer than the limit. -/
theorem run_depth_exact (ha : attributes.Ordered) (hr : doc.Reachable) :
    let evaluator := builtin space attributes settings kindCheck
    let limit := settings.maxLookupDepth
    ((∃ doc', (evaluator.run doc).value = (.error (.lookupDepthExceeded limit), doc')) ↔
      ∃ names, Nests attributes evaluator limit doc names ∧ limit < names.length) ∧
    (∀ rank, attributes.Ranked space limit rank →
      ∀ e doc', (evaluator.run doc).value = (.error e, doc') → ¬ e.TooDeep) ∧
    ∀ report doc', (evaluator.run doc).value = (.ok report, doc') →
      ∀ names, Nests attributes evaluator limit doc names → names.length ≤ limit := by
  intro evaluator limit
  have hexact : ∀ {e : MacroError}, e.TooDeep →
      ((∃ doc', (evaluator.run doc).value = (.error e, doc')) ↔ e = .lookupDepthExceeded limit ∧
        ∃ names, Nests attributes evaluator limit doc names ∧ limit < names.length) :=
    fun he => tooDeep_iff_nests ha he limit hr.inShape true
  have hiff := (hexact ⟨limit, rfl⟩).trans (and_iff_right rfl)
  refine ⟨hiff, fun rank hranked e doc' hrun he => ?_, fun report doc' hrun names hn => ?_⟩
  · -- A ranked chain is too short to go beyond the limit.
    obtain ⟨-, names, hn, hlen⟩ := (hexact he).mp ⟨doc', hrun⟩
    have hle : names.length ≤ limit := hn.length_le ha hranked fun name v hl => by
      obtain ⟨kind, hfind⟩ := hl.exists_find?
      exact hranked.below name _ hfind
    exact absurd hlen (Nat.not_lt.mpr hle)
  · refine Nat.not_lt.mp fun hlen => ?_
    obtain ⟨doc'', herror⟩ := hiff.mpr ⟨names, hn, hlen⟩
    cases hrun.symm.trans herror

/-- A chain of two lookups, with a level for each, and with a level for one of them.  The first
attribute holds a lookup of the second, so they have the ranks one and zero. -/
theorem run_depth_exact_of_chain :
    let attributes : Attributes :=
      [("a", .inferred (.object [("x", .object [("k.Object.Lookup", .string "b")])])),
       ("b", .inferred (.object []))]
    let doc := Document.ofValue (.object [("k.Object.Lookup", .string "a")])
    let evaluator (limit : Nat) : Evaluator :=
      builtin "k" attributes { maxLookupDepth := limit } false
    (∀ e doc', ((evaluator 2).run doc).value = (.error e, doc') → ¬ e.TooDeep) ∧
      ∃ names, Nests attributes (evaluator 1) 1 doc names ∧ 1 < names.length := by
  intro attributes doc evaluator
  have ha : attributes.Ordered := by
    refine List.forall_mem_cons.mpr ⟨?_, List.forall_mem_singleton.mpr ?_⟩
    all_goals
      simp only [Attribute.inferred, Value.Ordered, Value.OrderedFields, Fields.Ordered]
      decide
  have hr : doc.Reachable := .ofValue (by
    simp only [Value.Ordered, Value.OrderedFields, Fields.Ordered]
    decide)
  constructor
  · have hidle : (Registry.builtin "k" attributes).Idle "x" :=
      Registry.phasesFor_isEmpty_iff.mp (by decide +kernel)
    -- The first attribute looks up the second, which looks up nothing.
    have hranked : attributes.Ranked "k" 2 fun name => if name = "a" then 1 else 0 := by
      refine ⟨fun name a hf => ?_, fun name a hf => ?_⟩
      · split
        · exact Nat.lt_succ_self 1
        · exact Nat.zero_lt_two
      · rcases List.mem_pair.mp (Fields.mem_of_find? hf) with heq | heq
        · obtain ⟨rfl, rfl⟩ := Prod.mk.inj heq
          have hinner : (Value.object [("k.Object.Lookup", .string "b")]).EveryField
              (attributes.Descends "k" (fun name => if name = "a" then 1 else 0) 1) :=
            Value.everyField_object (List.forall_mem_singleton.mpr
              ⟨fun _ _ _ => ⟨"b", rfl, fun _ _ => by decide⟩, Value.everyField_scalar _⟩)
          exact Value.everyField_object (List.forall_mem_singleton.mpr
            ⟨Attributes.free_of_idle hidle _, hinner⟩)
        · obtain ⟨rfl, rfl⟩ := Prod.mk.inj heq
          exact Value.everyField_object fun entry he => absurd he List.not_mem_nil
    exact (run_depth_exact ha hr).2.1 _ hranked
  · -- With one level the run fails for the limit, so there is a chain that is longer.
    have hfails : ((evaluator 1).run doc).value.1.map (fun _ => ())
        = .error (.lookupDepthExceeded 1) := by
      decide +kernel
    obtain ⟨doc', hrun⟩ : ∃ doc', ((evaluator 1).run doc).value
        = (.error (.lookupDepthExceeded 1), doc') :=
      ⟨_, Prod.ext (eq_error_of_map hfails) rfl⟩
    exact (run_depth_exact ha hr).1.mp ⟨doc', hrun⟩

end Evaluator

end Expansion
