import Expansion.Proofs.Macro.Comparison
import Expansion.Proofs.Macro.Reports

/-!
  What the settings decide.

  Two walks are enough for every phase of every run, of the document and of the values that are
  expanded apart from it, cyclic attributes included: the number of levels bounds the nesting and
  nothing else need be bounded.  So a limit of two walks or more is never reached, and the run is
  the one without a limit.  Strict settings stop a run at a name of the namespace that calls no
  macro, and change nothing else: after a run that comes to its end there is no such name, so the
  check of the result never finds any.
-/

namespace Expansion.Evaluator

/-- The run takes at most two walks in each of its phases, and its result is theirs. -/
def TwoWalks (evaluator : Evaluator) (resolve : Resolve) (whole : Bool) (doc : Document) : Prop :=
  ∃ walks out, Runs evaluator resolve Phase.all doc walks out ∧ (∀ entry ∈ walks, entry.2 ≤ 2) ∧
    (evaluator.runWith resolve whole doc).value = (out.1.map fun reports => ⟨reports⟩, out.2)

/-- Where macros rewrite their wrappers, two walks are enough for every phase. -/
theorem twoWalks_of_rewriting {evaluator : Evaluator} {resolve : Resolve} {doc : Document}
    (h : doc.InShape) (hev : evaluator.Rewriting resolve) (whole : Bool) :
    evaluator.TwoWalks resolve whole doc := by
  obtain ⟨walks, out, hle, hr⟩ := exists_runs h hev (not_occurs_calls_nil evaluator _) Phase.all
  refine ⟨walks, out, hr, hle, ?_⟩
  rw [value_runWith_of_rewriting h hev, value_runPhases_of_runs hr hle]

variable {space : String} {attributes : Attributes} {kindCheck : Bool} {doc : Document}

/-! ## Limits of walks -/

/-- Limits that leave room for two walks follow the settings without a limit. -/
theorem follows_unlimited {settings : Settings}
    (hlimit : ∀ limit, settings.maxWalks = some limit → 2 ≤ limit) :
    Follows (fun _ => False)
      (builtin space attributes { settings with maxWalks := none } kindCheck)
      (builtin space attributes settings kindCheck) where
  registry := .refl _
  kindCheck := rfl
  depth := Or.inl rfl
  strict := Or.inl rfl
  mayWalk := by
    intro walks _ limit hl
    cases hl
  twice := by
    intro walks hwalks _
    exact Or.inl fun limit hl => Nat.lt_of_lt_of_le hwalks (hlimit limit hl)

/-- Without a limit no run reports one. -/
theorem run_unlimited_ne_walkLimitExceeded (ha : attributes.Ordered) (h : doc.InShape)
    {settings : Settings} (hnone : settings.maxWalks = none) (phase : Phase) (walks : Nat) :
    ((builtin space attributes settings kindCheck).run doc).value.1
      ≠ .error (.walkLimitExceeded phase walks) := by
  intro he
  rcases reports_run ha h _ he with hordinary | ⟨_, walks', -, hmay⟩
  · exact hordinary
  · refine hmay fun limit hl => ?_
    have hsome : none = some limit := hnone.symm.trans hl
    cases hsome

/-- Every phase takes at most two walks, in the run over a document and in the runs over values that
are expanded apart, however deep.  A limit of at least two is never reached, and the run is the one
without a limit. -/
theorem run_builtin_two_walks (ha : attributes.Ordered) (settings : Settings) (hr : doc.Reachable) :
    let evaluator := builtin space attributes settings kindCheck
    let unlimited := builtin space attributes { settings with maxWalks := none } kindCheck
    evaluator.TwoWalks evaluator.resolveFully true doc ∧
    (∀ levels v, v.Ordered → evaluator.withoutKindCheck.TwoWalks (evaluator.resolve levels) false
      (Document.ofValue v)) ∧
    ((∀ limit, settings.maxWalks = some limit → 2 ≤ limit) →
      (∀ phase walks, (evaluator.run doc).value.1 ≠ .error (.walkLimitExceeded phase walks)) ∧
      (evaluator.run doc).value = (unlimited.run doc).value) := by
  intro evaluator unlimited
  have hrewriting : ∀ levels, evaluator.Rewriting (evaluator.resolve levels) := fun levels =>
    rewriting_builtin ha (expands_resolve ha levels)
  refine ⟨twoWalks_of_rewriting hr.inShape (hrewriting _) true, fun levels v hv => ?_,
    fun hlimit => ?_⟩
  · exact twoWalks_of_rewriting ⟨_, Shape.ofValue hv⟩ (hrewriting levels).withoutKindCheck false
  · -- There are no extra errors, so the two runs are the same.
    rcases (follows_unlimited hlimit).endAlike_run ha hr.inShape with heq | ⟨_, hbad, -⟩
    · refine ⟨fun phase walks he => ?_, heq⟩
      rw [heq] at he
      exact run_unlimited_ne_walkLimitExceeded ha hr.inShape rfl phase walks he
    · exact hbad.elim

/-- An attribute that looks itself up.  With a limit of two walks the run is stopped by the levels,
not by the walks. -/
theorem run_builtin_two_walks_of_cycle :
    let evaluator := builtin "k" [("a", ⟨.object, .object [("k.Object.Lookup", .string "a")]⟩)]
      { maxWalks := some 2 } true
    let doc := Document.ofValue
      (.object [("kind", .string "Pod"), ("spec", .object [("k.Object.Lookup", .string "a")])])
    evaluator.TwoWalks evaluator.resolveFully true doc ∧
      ∀ phase walks, (evaluator.run doc).value.1 ≠ .error (.walkLimitExceeded phase walks) := by
  have hcall : (Value.object [("k.Object.Lookup", .string "a")]).Ordered :=
    ⟨List.pairwise_singleton _ _, trivial, trivial⟩
  have hattributes : Attributes.Ordered
      [("a", ⟨.object, .object [("k.Object.Lookup", .string "a")]⟩)] := by
    intro entry he
    obtain rfl := List.mem_singleton.mp he
    exact hcall
  have hdoc : (Value.object
      [("kind", .string "Pod"), ("spec", .object [("k.Object.Lookup", .string "a")])]).Ordered :=
    ⟨List.pairwise_pair.mpr (by decide), trivial, hcall, trivial⟩
  obtain ⟨htwo, -, hlimit⟩ :=
    @run_builtin_two_walks "k" _ true _ hattributes { maxWalks := some 2 } (.ofValue hdoc)
  refine ⟨htwo, (hlimit fun limit hl => ?_).1⟩
  exact Nat.le_of_eq (Option.some.inj hl)

/-! ## Strict settings -/

/-- Strict settings follow the lenient ones but for unknown macros. -/
theorem follows_leniently (settings : Settings) :
    Follows (fun e => ∃ path key, e = .unknownMacro path key)
      (builtin space attributes { settings with strict := false } kindCheck)
      (builtin space attributes settings.strictly kindCheck) where
  registry := .refl _
  kindCheck := rfl
  depth := Or.inl rfl
  strict := Or.inr ⟨rfl, fun path key => ⟨path, key, rfl⟩⟩
  mayWalk := fun _ h => h
  twice := fun _ _ h => Or.inl h

/-- Under strict settings a run ends as under lenient ones, with the same answer and the same
document, or with an unknown macro.  Under neither does it report macros that are left. -/
theorem run_builtin_strictly (ha : attributes.Ordered) (settings : Settings) (hr : doc.Reachable) :
    let lenient := builtin space attributes { settings with strict := false } kindCheck
    let strict := builtin space attributes settings.strictly kindCheck
    ((strict.run doc).value = (lenient.run doc).value ∨
      ∃ path key, (strict.run doc).value.1 = .error (.unknownMacro path key)) ∧
    ∀ paths, (strict.run doc).value.1 ≠ .error (.unresolvedMacros paths) ∧
      (lenient.run doc).value.1 ≠ .error (.unresolvedMacros paths) := by
  intro lenient strict
  have hnever : ∀ settings paths, ((builtin space attributes settings kindCheck).run doc).value.1
      ≠ .error (.unresolvedMacros paths) := by
    intro settings paths he
    rcases reports_run ha hr.inShape _ he with hordinary | ⟨_, _, hlimit, -⟩
    · exact hordinary
    · cases hlimit
  refine ⟨?_, fun paths => ⟨hnever _ paths, hnever _ paths⟩⟩
  have hend : EndAlike _ (lenient.run doc).value (strict.run doc).value :=
    (follows_leniently settings).endAlike_run ha hr.inShape
  rcases hend with heq | ⟨_, ⟨path, key, rfl⟩, he⟩
  · exact Or.inl heq
  · exact Or.inr ⟨path, key, he⟩

/-- A name of the namespace that calls no macro stays under lenient settings, and under strict ones
the run ends with it. -/
theorem run_builtin_strictly_of_unknown :
    let doc := Document.ofValue
      (.object [("k.Null.Lookup", .string "a"), ("kind", .string "Pod")])
    let strict := builtin "k" [] ({ maxWalks := some 1 } : Settings).strictly true
    let lenient := builtin "k" [] { maxWalks := some 1 } true
    (lenient.run doc).value.1.isOk = true ∧
      ∃ path key, (strict.run doc).value.1 = .error (.unknownMacro path key) := by
  intro doc strict lenient
  have hdoc : (Value.object
      [("k.Null.Lookup", .string "a"), ("kind", .string "Pod")]).Ordered :=
    ⟨List.pairwise_pair.mpr (by decide), trivial, trivial, trivial⟩
  have hnone : Attributes.Ordered [] := fun _ he => nomatch he
  have hlenient : (lenient.run doc).value.1.isOk = true := by decide +kernel
  have hstrict : (strict.run doc).value.1.isOk = false := by decide +kernel
  refine ⟨hlenient,
    (run_builtin_strictly hnone { maxWalks := some 1 } (.ofValue hdoc)).1.resolve_left fun heq => ?_⟩
  -- One of the runs comes to its end and the other does not, so their answers differ.
  have hsame : (strict.run doc).value = (lenient.run doc).value := heq
  rw [hsame, hlenient] at hstrict
  cases hstrict

end Expansion.Evaluator
