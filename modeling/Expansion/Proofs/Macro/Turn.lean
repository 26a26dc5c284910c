import Expansion.Proofs.Macro.Effect
import Expansion.Proofs.Macro.Yield

/-!
  The turn of a modifier.

  In a run every modifier comes to its turn with some document: the document of the walk that
  collected it, changed by what ran before it.  `RunTurn` says which modifier comes to its turn with
  which document; the relations follow `Modifier.applyEach`, `Evaluator.converge` and
  `Evaluator.runPhases` step by step.  Values that are expanded apart have runs of their own, with
  one level less, so what holds of the turns of all runs at all levels holds of theirs.

  At its turn a modifier is the first of those that cover the keys of the phases so far
  (`Modifier.Turn.covers`).  Modifiers of deeper keys run earlier: so there is no such key left
  below the key of the modifier (`Covers.everyKey_below`), which is where it reads from.

  A turn in the first walk of a phase can be told from the document that is given, when the phases
  before find nothing in it: from the outline of what the walk finds, if that is one modifier
  (`outline`), and else from what the inner modifiers make of the value, if all are inside each
  other (`outermost`).
-/

namespace Expansion

/-- Carrying out instructions comes to `i` with the document `d`. -/
inductive Instruction.Turn : List Instruction → Document → Instruction → Document → Prop
  | now {i : Instruction} {rest : List Instruction} {doc : Document} : Turn (i :: rest) doc i doc
  | later {i j : Instruction} {rest : List Instruction} {doc next d : Document}
    (ha : (i.apply doc).value = (.ok (), next)) (ht : Turn rest next j d) :
    Turn (i :: rest) doc j d

/-- Running modifiers comes to the turn of `m` with the document `d`. -/
inductive Modifier.Turn : List Modifier → Document → Modifier → Document → Prop
  | now {m : Modifier} {rest : List Modifier} {doc : Document} : Turn (m :: rest) doc m doc
  | later {m other : Modifier} {rest : List Modifier} {doc next d : Document}
    (ha : (other.apply doc).value = (.ok (), next)) (ht : Turn rest next m d) :
    Turn (other :: rest) doc m d

namespace Evaluator

/-- A phase comes to the turn of `m` with the document `d`, with so many walks left. -/
inductive PhaseTurn (evaluator : Evaluator) (resolve : Resolve) (phase : Phase) :
    (budget : Nat) → Document → Modifier → Document → Prop
  | now {budget : Nat} {doc d : Document} {pending : Pending} {m : Modifier}
    (hw : (evaluator.walkWith resolve phase doc).value = .ok pending)
    (ht : Modifier.Turn pending.inOrder doc m d) :
    PhaseTurn evaluator resolve phase (budget + 1) doc m d
  | later {budget applied : Nat} {doc next d : Document} {pending : Pending} {m : Modifier}
    (hw : (evaluator.walkWith resolve phase doc).value = .ok pending)
    (he : pending.isEmpty = false) (ha : (pending.applyAll doc).value = (.ok applied, next))
    (ht : PhaseTurn evaluator resolve phase budget next m d) :
    PhaseTurn evaluator resolve phase (budget + 1) doc m d

/-- Phases that run one after the other come, in one of them, to the turn of `m` with the document
`d`. -/
inductive RunTurn (evaluator : Evaluator) (resolve : Resolve) :
    List Phase → Document → Phase → Modifier → Document → Prop
  | now {phase : Phase} {rest : List Phase} {doc d : Document} {m : Modifier}
    (ht : PhaseTurn evaluator resolve phase evaluator.walkBudget doc m d) :
    RunTurn evaluator resolve (phase :: rest) doc phase m d
  | later {other phase : Phase} {rest : List Phase} {doc next d : Document} {m : Modifier}
    {report : PhaseReport}
    (hc : (evaluator.converge resolve other evaluator.walkBudget 0 0 doc).value
      = (.ok report, next))
    (ht : RunTurn evaluator resolve rest next phase m d) :
    RunTurn evaluator resolve (other :: rest) doc phase m d

end Evaluator

/-! ## What is covered at a turn -/

/-- A lone instruction comes to its turn with the document as it is. -/
theorem Instruction.Turn.of_singleton {i j : Instruction} {doc d : Document}
    (ht : Turn [i] doc j d) : j = i ∧ d = doc := by
  cases ht with
  | now => exact ⟨rfl, rfl⟩
  | later _ ht => cases ht

/-- An instruction that comes to its turn is one of those carried out. -/
theorem Instruction.Turn.mem {is : List Instruction} {i : Instruction} {doc d : Document}
    (ht : Turn is doc i d) : i ∈ is := by
  induction ht with
  | now => exact List.mem_cons_self
  | later _ _ ih => exact List.mem_cons_of_mem _ ih

namespace Modifier.Turn

variable {ms : List Modifier} {doc d : Document} {m : Modifier} {marked : String → Prop}

/-- A modifier that comes to its turn is one of those that run. -/
theorem mem (ht : Turn ms doc m d) : m ∈ ms := by
  induction ht with
  | now => exact List.mem_cons_self
  | later _ _ ih => exact List.mem_cons_of_mem _ ih

/-- Modifiers that make something of the value run to the turn of the one after them, which then
finds a document of what they made. -/
theorem exists_of_effect {before : List Modifier} (rest : List Modifier) {v : Value}
    (hd : doc.InShape) (ho : ∀ m' ∈ before, m'.Ordered)
    (he : effectEach? before doc.toValue = some v) :
    ∃ d, Turn (before ++ m :: rest) doc m d ∧ d.InShape ∧ d.toValue = v := by
  induction before generalizing doc with
  | nil => exact ⟨doc, .now, hd, Option.some.inj he⟩
  | cons first before ih =>
    obtain ⟨made, hmade, hrest⟩ := Option.bind_eq_some_iff.mp he
    obtain ⟨_, next, ha, hnext, rfl⟩ :=
      (mirrors_apply (ho first List.mem_cons_self)).of_some hd hmade
    obtain ⟨d, ht, hd', hv⟩ := ih hnext (fun m' hm' => ho m' (List.mem_cons_of_mem first hm')) hrest
    exact ⟨d, .later ha ht, hd', hv⟩

/-- A modifier comes to its turn as the first of those that cover what is left. -/
theorem covers (ht : Turn ms doc m d) (h : Covers marked ms doc)
    (hs : ms.Pairwise fun a b => a.runsBefore b = true)
    (hr : ∀ m ∈ ms, m.Rewrites fun name => ¬ marked name) :
    ∃ rest, Covers marked (m :: rest) d ∧
      (m :: rest).Pairwise fun a b => a.runsBefore b = true := by
  induction ht with
  | now => exact ⟨_, h, hs⟩
  | later ha _ ih =>
    exact ih (h.apply hs (hr _ List.mem_cons_self) ha) (List.pairwise_cons.mp hs).2
      fun m' hm' => hr m' (List.mem_cons_of_mem _ hm')

end Modifier.Turn

/-- Below the key of the first modifier nothing is marked: what is deeper has run before.  A deeper
key would have a modifier of its own among those that are left, and that one would run before the
first. -/
theorem Covers.everyKey_below {marked : String → Prop} {m : Modifier} {rest : List Modifier}
    {doc : Document} (h : Covers marked (m :: rest) doc)
    (hs : (m :: rest).Pairwise fun a b => a.runsBefore b = true) {v : Value}
    (hv : doc.toValue.get? m.path = some v) : v.EveryKey fun name => ¬ marked name := by
  have ho : v.Ordered := h.shape.ordered.get? hv
  rw [Value.everyKey_iff ho]
  intro before name hres hname
  have hocc : doc.toValue.Occurs marked (m.path ++ before ++ [.field name]) := by
    refine ⟨m.path ++ before, name, rfl, hname, ?_⟩
    rw [List.append_assoc, Value.get?_append, hv]
    exact hres
  obtain ⟨m', hm', hpath⟩ := h.covered _ hocc
  have hdeeper : m.path.length < m'.path.length := by
    rw [hpath]
    simp only [List.length_append, List.length_singleton]
    omega
  rcases List.mem_cons.mp hm' with rfl | hm'
  · omega
  · have hbefore := (List.pairwise_cons.mp hs).1 m' hm'
    rcases Modifier.runsBefore_iff.mp hbefore with hlt | ⟨heq, -⟩
    · omega
    · omega

namespace Evaluator

variable {evaluator : Evaluator} {resolve : Resolve} {phase : Phase} {doc d : Document}
  {m : Modifier}

/-- What is known of a modifier at its turn in a phase: it was collected in a walk of the phase, and
it is the first of those that cover the keys of the phases so far. -/
structure AtTurn (evaluator : Evaluator) (resolve : Resolve) (phase : Phase) (done : List Phase)
    (m : Modifier) (d : Document) : Prop where
  collected : ∃ start pending, start.InShape ∧
    (evaluator.walkWith resolve phase start).value = .ok pending ∧ m ∈ pending.all
  first : ∃ rest, Covers (evaluator.registry.Calls (phase :: done)) (m :: rest) d ∧
    (m :: rest).Pairwise fun a b => a.runsBefore b = true

/-- A modifier comes to its turn in its phase as the first of those left over.  By induction on the
walks of the phase: after the modifiers of one of them, no key of the phases so far is left. -/
theorem PhaseTurn.atTurn {budget : Nat} (ht : PhaseTurn evaluator resolve phase budget doc m d)
    (h : doc.InShape) (hev : evaluator.Rewriting resolve) {done : List Phase}
    (hdone : ∀ path, ¬ doc.toValue.Occurs (evaluator.registry.Calls done) path) :
    evaluator.AtTurn resolve phase done m d := by
  induction ht with
  | @now budget doc d pending m hw ht =>
    have hmem : m ∈ pending.all := Pending.mem_inOrder.mp ht.mem
    refine ⟨⟨doc, pending, h, hw, hmem⟩, ?_⟩
    refine ht.covers (covers_of_walk h hev hdone hw) pending.pairwise_inOrder fun m' hm' => ?_
    have hrewrites := (collected_of_walk h hev hw).rewrites m' (Pending.mem_inOrder.mp hm')
    exact hrewrites.mono fun name hidle => hidle.not_calls _
  | later hw he ha ht ih =>
    obtain ⟨hshape, hclean⟩ := clean_of_applyAll h hev hdone hw ha
    -- The modifiers leave no key of the phases before, either.
    refine ih hshape fun path hocc => hclean path (hocc.mono fun key hcalls => ?_)
    obtain ⟨p, hp, hl⟩ := hcalls
    exact ⟨p, List.mem_cons_of_mem phase hp, hl⟩

/-- A modifier comes to its turn after the phases before its own have run. -/
theorem RunTurn.atTurn {phases : List Phase} (ht : RunTurn evaluator resolve phases doc phase m d)
    (h : doc.InShape) (hev : evaluator.Rewriting resolve) {done : List Phase}
    (hdone : ∀ path, ¬ doc.toValue.Occurs (evaluator.registry.Calls done) path) :
    ∃ before after, phases = before ++ phase :: after ∧
      evaluator.AtTurn resolve phase (before.reverse ++ done) m d := by
  induction ht generalizing done with
  | @now phase rest doc d m ht => exact ⟨[], rest, rfl, ht.atTurn h hev hdone⟩
  | @later other phase rest doc next d m report hc ht ih =>
    obtain ⟨hshape, hclean⟩ := clean_of_converge h hev hdone hc
    obtain ⟨before, after, rfl, hturn⟩ := ih hshape hclean
    refine ⟨other :: before, after, rfl, ?_⟩
    rwa [List.reverse_cons, List.append_assoc]

/-! ## The built-in macros -/

variable {space : String} {attributes : Attributes} {settings : Settings} {kindCheck : Bool}
  {levels : Nat}

/-- In a run of the built-in macros, at any level, a modifier that comes to its turn was made for a
key by the macro that the key calls, and the documents are in shape.  It was pending after some walk
of the run, so it came from a branch. -/
theorem RunTurn.makes (ha : attributes.Ordered) (h : doc.InShape)
    (ht : RunTurn (builtin space attributes settings kindCheck)
      ((builtin space attributes settings kindCheck).resolve levels) Phase.all doc phase m d) :
    d.InShape ∧ m.Ordered ∧ ∃ w name invocation factory, m.path = w ++ [.field name] ∧
      (builtin space attributes settings kindCheck).registry.lookup phase name
        = some (invocation, factory) ∧ invocation.definition.phase = phase ∧
      Macro.Makes attributes ((builtin space attributes settings kindCheck).resolve levels)
        invocation.definition w name m.instructions := by
  have hev : (builtin space attributes settings kindCheck).Rewriting _ :=
    rewriting_resolve ha levels
  obtain ⟨before, after, -, hturn⟩ := ht.atTurn h hev (not_occurs_calls_nil _ doc.toValue)
  obtain ⟨rest, hcovers, -⟩ := hturn.first
  obtain ⟨start, pending, hstart, hw, hm⟩ := hturn.collected
  obtain ⟨branch, hb, hy⟩ := exists_yield_of_mem_all hstart hw hm
  obtain ⟨-, hmade⟩ := makes_of_yield hstart hb hy
  refine ⟨hcovers.shape, ?_, hmade⟩
  exact (collected_of_walk hstart hev hw).ordered m hm

/-! ## Turns in the first walk of a phase -/

/-- A phase that may walk has a walk left. -/
theorem exists_walkBudget (hmay : evaluator.MayWalk 0) : ∃ left, evaluator.walkBudget = left + 1 :=
  hmay.exists_budget (fun limit hm => by simp [walkBudget, hm]) fun hm => by
    have hlarge : 0 + 1 ≤ Nat.pow 2 64 := by decide
    simpa only [walkBudget, hm, Option.getD_none] using hlarge

/-- Phases that find nothing are passed.  Each takes one walk and leaves the document as it is. -/
theorem RunTurn.pass {before rest : List Phase} (hmay : evaluator.MayWalk 0)
    (hw : ∀ other ∈ before,
      ((evaluator.walkWith resolve other doc).value.map Pending.len).toOption = some 0)
    (ht : RunTurn evaluator resolve rest doc phase m d) :
    RunTurn evaluator resolve (before ++ rest) doc phase m d := by
  induction before with
  | nil => exact ht
  | cons other before ih =>
    have hrest := ih fun p hp => hw p (List.mem_cons_of_mem other hp)
    have hfirst := hw other List.mem_cons_self
    cases hp : (evaluator.walkWith resolve other doc).value with
    | error e => simp [hp, Except.map, Except.toOption] at hfirst
    | ok pending =>
      have hlen : pending.len = 0 := by simpa [hp, Except.map, Except.toOption] using hfirst
      have hempty : pending.isEmpty = true := by
        rw [Pending.isEmpty, List.isEmpty_iff, ← List.length_eq_zero_iff]
        exact hlen
      exact .later (value_converge_of_settles_start (.rested hmay hp hempty) (by decide)) hrest

/-- What a walk finds, in outline: the paths of the modifiers and the names of their
instructions. -/
def outline (evaluator : Evaluator) (phase : Phase) (doc : Document) :
    Option (List (Path × List String)) :=
  ((evaluator.walkWith evaluator.resolveFully phase doc).value.map fun pending =>
    pending.modifiers.map fun entry =>
      (entry.2.path, entry.2.instructions.map Instruction.name)).toOption

/-- A walk with an empty outline finds nothing. -/
theorem len_of_outline (h : evaluator.outline phase doc = some []) :
    ((evaluator.walkWith evaluator.resolveFully phase doc).value.map Pending.len).toOption
      = some 0 := by
  rw [outline] at h
  cases hp : (evaluator.walkWith evaluator.resolveFully phase doc).value with
  | error e => simp [hp, Except.map, Except.toOption] at h
  | ok pending => simpa [hp, Except.map, Except.toOption, Pending.len] using h

/-- A turn in the first walk of a phase is a turn of the run, when the phases before find nothing.
-/
theorem RunTurn.of_walk (before after : List Phase) (hall : Phase.all = before ++ phase :: after)
    (hmay : evaluator.MayWalk 0)
    (hidle : ∀ other ∈ before, evaluator.outline other doc = some []) {pending : Pending}
    (hw : (evaluator.walkWith evaluator.resolveFully phase doc).value = .ok pending)
    (ht : Modifier.Turn pending.inOrder doc m d) :
    RunTurn evaluator evaluator.resolveFully Phase.all doc phase m d := by
  obtain ⟨left, hleft⟩ := exists_walkBudget hmay
  have hturn : PhaseTurn evaluator evaluator.resolveFully phase evaluator.walkBudget doc m d :=
    hleft ▸ .now hw ht
  rw [hall]
  exact RunTurn.pass hmay (fun other hother => len_of_outline (hidle other hother)) (.now hturn)

/-- What is known of a modifier of the built-in macros that comes to its turn, when its path is
known. -/
theorem RunTurn.makes_at {w : Path} {name : String} (ha : attributes.Ordered) (h : doc.InShape)
    (ht : RunTurn (builtin space attributes settings kindCheck)
      ((builtin space attributes settings kindCheck).resolve levels) Phase.all doc phase m d)
    (hpath : m.path = w ++ [.field name]) :
    m.Ordered ∧ ∃ invocation factory,
      (builtin space attributes settings kindCheck).registry.lookup phase name
        = some (invocation, factory) ∧ invocation.definition.phase = phase ∧
      Macro.Makes attributes ((builtin space attributes settings kindCheck).resolve levels)
        invocation.definition w name m.instructions := by
  obtain ⟨-, hordered, w', name', invocation, factory, hpath', hlookup, hphase, hmakes⟩ :=
    ht.makes ha h
  obtain ⟨rfl, hkey⟩ := List.append_inj' (hpath.symm.trans hpath') rfl
  obtain rfl : name = name' := by simpa using hkey
  exact ⟨hordered, invocation, factory, hlookup, hphase, hmakes⟩

/-- The only modifier of a phase comes to its turn with the document as it is, when the phases
before find nothing.  What the modifier does is not computed, but told by the macro that the key
calls. -/
theorem exists_turn_of_outline (phase : Phase) (before after : List Phase) (w : Path)
    (name : String) (names : List String) (ha : attributes.Ordered) (hr : doc.Reachable)
    (hall : Phase.all = before ++ phase :: after)
    (hmay : (builtin space attributes settings kindCheck).MayWalk 0)
    (hidle : ∀ other ∈ before,
      (builtin space attributes settings kindCheck).outline other doc = some [])
    (hw : (builtin space attributes settings kindCheck).outline phase doc
      = some [(w ++ [.field name], names)]) :
    ∃ m invocation factory, RunTurn (builtin space attributes settings kindCheck)
        (builtin space attributes settings kindCheck).resolveFully Phase.all doc phase m doc ∧
      m.path = w ++ [.field name] ∧ m.instructions.map Instruction.name = names ∧ m.Ordered ∧
      (builtin space attributes settings kindCheck).registry.lookup phase name
        = some (invocation, factory) ∧ invocation.definition.phase = phase ∧
      Macro.Makes attributes (builtin space attributes settings kindCheck).resolveFully
        invocation.definition w name m.instructions := by
  rw [outline] at hw
  cases hp : ((builtin space attributes settings kindCheck).walkWith
    (builtin space attributes settings kindCheck).resolveFully phase doc).value with
  | error e => simp [hp, Except.map, Except.toOption] at hw
  | ok pending =>
    rw [hp] at hw
    -- The outline has one entry, so there is one modifier, and it comes first.
    obtain ⟨entry, hentry, hmodifier⟩ := List.map_eq_singleton_iff.mp (Option.some.inj hw)
    obtain ⟨hpath, hnames⟩ := Prod.mk.inj hmodifier
    have hturn : Modifier.Turn pending.inOrder doc entry.2 doc := by
      rw [Pending.inOrder_of_eq_singleton hentry]
      exact .now
    have hrun := RunTurn.of_walk before after hall hmay hidle hp hturn
    obtain ⟨hordered, invocation, factory, hmade⟩ := hrun.makes_at ha hr.inShape hpath
    exact ⟨entry.2, invocation, factory, hrun, hpath, hnames, hordered, hmade⟩

/-- The outermost modifier of a walk whose modifiers are inside each other, in outline, and what the
inner ones make of the value.  They are filed from the outermost to the innermost and run the other
way round. -/
def outermost (evaluator : Evaluator) (phase : Phase) (doc : Document) :
    Option ((Path × List String) × Option Value) :=
  (evaluator.walkWith evaluator.resolveFully phase doc).value.toOption.bind fun pending =>
    match pending.all with
    | [] => none
    | m :: inner =>
      if (inner.reverse ++ [m]).Pairwise fun a b => b.path.length < a.path.length then
        some ((m.path, m.instructions.map Instruction.name),
          Modifier.effectEach? inner.reverse doc.toValue)
      else none

/-- The outermost modifier of the first walk of a phase comes to its turn with what the inner ones
made, when the phases before find nothing.  The document at its turn is not computed either: it is
some document of the value that the inner modifiers make. -/
theorem exists_turn_of_outermost (phase : Phase) (before after : List Phase) (w : Path)
    (name : String) (names : List String) (v : Value) (ha : attributes.Ordered)
    (hr : doc.Reachable) (hall : Phase.all = before ++ phase :: after)
    (hmay : (builtin space attributes settings kindCheck).MayWalk 0)
    (hidle : ∀ other ∈ before,
      (builtin space attributes settings kindCheck).outline other doc = some [])
    (hw : (builtin space attributes settings kindCheck).outermost phase doc
      = some ((w ++ [.field name], names), some v)) :
    ∃ m d invocation factory, RunTurn (builtin space attributes settings kindCheck)
        (builtin space attributes settings kindCheck).resolveFully Phase.all doc phase m d ∧
      d.InShape ∧ d.toValue = v ∧ m.instructions.map Instruction.name = names ∧
      (builtin space attributes settings kindCheck).registry.lookup phase name
        = some (invocation, factory) ∧ invocation.definition.phase = phase ∧
      Macro.Makes attributes (builtin space attributes settings kindCheck).resolveFully
        invocation.definition w name m.instructions := by
  rw [outermost] at hw
  cases hp : ((builtin space attributes settings kindCheck).walkWith
    (builtin space attributes settings kindCheck).resolveFully phase doc).value with
  | error e =>
    rw [hp] at hw
    cases hw
  | ok pending =>
    rw [hp] at hw
    rw [Except.toOption, Option.bind_some] at hw
    cases hall' : pending.all with
    | nil =>
      rw [hall'] at hw
      cases hw
    | cons m inner =>
      rw [hall'] at hw
      obtain ⟨hdepth, hmodifier⟩ := Option.ite_none_right_eq_some.mp hw
      obtain ⟨houtline, hmade⟩ := Prod.mk.inj (Option.some.inj hmodifier)
      obtain ⟨hpath, hnames⟩ := Prod.mk.inj houtline
      -- What is pending, taken from its end, is deepest first, so that is how it runs.
      have hfiled : (inner.reverse ++ [m]).Perm pending.all := by
        rw [hall', ← List.reverse_cons]
        exact List.reverse_perm _
      have hinOrder := Pending.inOrder_eq_of_deepest_first hfiled hdepth
      have hordered : ∀ m' ∈ inner.reverse, m'.Ordered := fun m' hm' =>
        (collected_of_walk hr.inShape (rewriting_resolve ha _) hp).ordered m'
          (hfiled.mem_iff.mp (List.mem_append_left _ hm'))
      obtain ⟨d, hturn, hd, hv⟩ :=
        Modifier.Turn.exists_of_effect [] hr.inShape hordered hmade
      -- The inner modifiers make their value, and then it is the turn of the outermost one.
      have hrun := RunTurn.of_walk before after hall hmay hidle hp (hinOrder.symm ▸ hturn)
      obtain ⟨-, invocation, factory, hmakes⟩ := hrun.makes_at ha hr.inShape hpath
      exact ⟨m, d, invocation, factory, hrun, hd, hv, hnames, hmakes⟩

end Evaluator

/-- When the last phase runs, every phase has run or is running, and when the one before it does,
all but the last. -/
theorem Phase.mem_of_all_eq {before after : List Phase} {phase other : Phase}
    (h : Phase.all = before ++ phase :: after)
    (hother : phase = .encoding ∨ phase = .composites ∧ other ≠ .encoding) :
    other ∈ phase :: before.reverse := by
  have hnodup : (before ++ phase :: after).Nodup := h ▸ (by decide : Phase.all.Nodup)
  have hne : ∀ p ∈ before, (p != phase) = true := by
    intro p hp
    have hdisjoint := (List.nodup_append.mp hnodup).2.2 p hp phase List.mem_cons_self
    simpa using hdisjoint
  have hbefore : before = Phase.all.takeWhile (· != phase) := by
    rw [h, List.takeWhile_append_of_pos hne, List.takeWhile_cons_of_neg (by simp), List.append_nil]
  rw [hbefore]
  rcases hother with rfl | ⟨rfl, hlast⟩
  · cases other <;> decide
  · cases other with
    | encoding => exact absurd rfl hlast
    | directives => decide
    | scalars => decide
    | composites => decide

end Expansion
