import Expansion.Proofs.Macro.Comparison
import Expansion.Proofs.Macro.Passes
import Expansion.Proofs.Macro.Registry

/-!
  More resources.

  Attributes, levels of lookups and walks are what a run may run out of.  With fewer of them it does
  the same or stops: the evaluator with less follows the one with more, every error counted as extra
  (`follows_of_more`).  That both call macros at the same keys is read off the definitions of their
  registries, which do not mention the attributes (`Registry.sameKeys_defineAll`).  A run that
  succeeds did not stop, so it is the run with more (`run_builtin_of_more`).
-/

namespace Expansion

/-! ## Registries with the same definitions -/

namespace Registry

open Macro

/-- Which macro a key calls, apart from what it does, can be told from the definitions.  The words
of the key must be those of a definition; which of several factories is registered for it is another
question. -/
theorem exists_lookup_defineAll_iff {space key : String} {phase : Phase}
    {calls : List Registered} {invocation : Invocation}
    (hverbs : ∀ d ∈ calls.map Registered.definition, '(' ∉ d.verb.toList) :
    (∃ factory, (defineAll calls { space }).value.lookup phase key = some (invocation, factory)) ↔
      ∃ call : Call, Plain call.argument ∧ key = call.text space ∧
        ⟨call.returnType, phase, call.verb⟩ ∈ calls.map Registered.definition ∧
        invocation = ⟨⟨call.returnType, phase, call.verb⟩, call.name space, call.argument⟩ := by
  have hplain : ∀ m ∈ calls, '(' ∉ m.definition.verb.toList :=
    fun m hm => hverbs _ (List.mem_map_of_mem hm)
  constructor
  · rintro ⟨factory, hl⟩
    obtain ⟨call, m, hargument, htext, hlast, rfl, -⟩ := (lookup_defineAll_iff hplain).mp hl
    obtain ⟨hd, before, after, hcalls, -⟩ := last?_eq_some_iff.mp hlast
    have hm : m ∈ calls := hcalls ▸ List.mem_append_right _ List.mem_cons_self
    exact ⟨call, hargument, htext, hd ▸ List.mem_map_of_mem hm, by rw [hd]⟩
  · rintro ⟨call, hargument, htext, hd, rfl⟩
    obtain ⟨m, hlast⟩ : ∃ m, last? ⟨call.returnType, phase, call.verb⟩ calls = some m := by
      rw [← Option.isSome_iff_exists, isSome_last?_iff]
      simpa using hd
    have hm := (last?_eq_some_iff.mp hlast).1
    exact ⟨m.factory, (lookup_defineAll_iff hplain).mpr
      ⟨call, m, hargument, htext, hlast, by rw [hm], rfl⟩⟩

/-- Macros of the same definitions are called at the same keys. -/
theorem sameKeys_defineAll (space : String) {calls calls' : List Registered}
    (hd : calls'.map Registered.definition = calls.map Registered.definition)
    (hverbs : ∀ d ∈ calls.map Registered.definition, '(' ∉ d.verb.toList) :
    (defineAll calls { space }).value.SameKeys (defineAll calls' { space }).value := by
  refine ⟨by rw [space_defineAll, space_defineAll], fun phase key => ?_⟩
  refine Option.ext fun invocation => ?_
  have hfst : ∀ calls : List Registered,
      ((defineAll calls { space }).value.lookup phase key).map Prod.fst = some invocation ↔
        ∃ factory, (defineAll calls { space }).value.lookup phase key
          = some (invocation, factory) := by
    intro calls
    simp [Option.map_eq_some_iff]
  rw [hfst, hfst, exists_lookup_defineAll_iff hverbs,
    exists_lookup_defineAll_iff (hd ▸ hverbs), hd]

/-- No verb of a built-in macro holds a parenthesis. -/
theorem open_notMem_verb (attributes : Attributes) :
    ∀ d ∈ (builtins attributes).map Registered.definition, '(' ∉ d.verb.toList := by
  show ∀ d ∈ (builtins []).map Registered.definition, '(' ∉ d.verb.toList
  decide

/-- The built-in macros are called at the same keys whatever the attributes. -/
theorem sameKeys_builtin (space : String) (attributes attributes' : Attributes) :
    (builtin space attributes).SameKeys (builtin space attributes') := by
  rw [← value_withBuiltins, ← value_withBuiltins]
  exact sameKeys_defineAll space rfl (open_notMem_verb attributes)

end Registry

/-! ## Attributes that hold others -/

/-- Where an attribute is among others, a lookup finds it there as well. -/
theorem Attributes.offers_of_find? {attributes attributes' : Attributes}
    (hmore : ∀ name a, Fields.find? name attributes = some a →
      Fields.find? name attributes' = some a) :
    attributes'.Offers (fun _ => True) attributes := by
  intro name expected
  cases hl : attributes.lookup name expected with
  | error e => exact Or.inr ⟨e, trivial, rfl⟩
  | ok v =>
    obtain ⟨hf, hk⟩ := Attributes.lookup_eq_ok_iff.mp hl
    have hl' := Attributes.lookup_eq_ok_iff.mpr ⟨hmore name _ hf, hk⟩
    exact Or.inl hl'.symm

namespace Evaluator

variable {space : String} {attributes attributes' : Attributes} {settings settings' : Settings}
  {kindCheck : Bool} {doc doc' : Document}

/-! ## Runs with more resources -/

/-- The second settings allow at least as many walks: as many or more, or any number. -/
def MoreWalks (settings settings' : Settings) : Prop :=
  ∀ limit', settings'.maxWalks = some limit' →
    ∃ limit, settings.maxWalks = some limit ∧ limit ≤ limit'

/-- With fewer resources an evaluator does the same, or stops with an error. -/
theorem follows_of_more (hstrict : settings'.strict = settings.strict)
    (hdepth : settings.maxLookupDepth ≤ settings'.maxLookupDepth)
    (hwalks : MoreWalks settings settings') :
    Follows (fun _ => True) (builtin space attributes' settings' kindCheck)
      (builtin space attributes settings kindCheck) where
  registry := Registry.sameKeys_builtin space attributes' attributes
  kindCheck := rfl
  depth := Or.inr ⟨hdepth, fun _ => trivial⟩
  strict := Or.inl hstrict.symm
  mayWalk := by
    intro walks hmay limit' hl'
    obtain ⟨limit, hl, hle⟩ := hwalks limit' hl'
    exact Nat.lt_of_lt_of_le (hmay limit hl) hle
  twice := fun _ _ _ => Or.inr fun _ => trivial

/-- A run that succeeds is the same run with more resources: with the attributes among others,
lookups that may nest as deep or deeper, and as many walks or more, or any number of them. -/
theorem run_builtin_of_more (ha : attributes.Ordered) (ha' : attributes'.Ordered)
    (hmore : ∀ name a, Fields.find? name attributes = some a →
      Fields.find? name attributes' = some a)
    (hstrict : settings'.strict = settings.strict)
    (hdepth : settings.maxLookupDepth ≤ settings'.maxLookupDepth)
    (hwalks : MoreWalks settings settings') (hr : doc.Reachable) {report : Report}
    (hrun : ((builtin space attributes settings kindCheck).run doc).value = (.ok report, doc')) :
    ((builtin space attributes' settings' kindCheck).run doc).value = (.ok report, doc') := by
  have hoffers := Attributes.offers_of_find? hmore
  have hend : EndAlike (fun _ => True)
      ((builtin space attributes' settings' kindCheck).run doc).value
      ((builtin space attributes settings kindCheck).run doc).value :=
    (follows_of_more hstrict hdepth hwalks).endAlike_run_of_offers ha' ha hoffers hr.inShape
  rcases hend with heq | ⟨e, -, he⟩
  · exact heq.symm.trans hrun
  · -- The run with less did not stop with an error.
    rw [hrun] at he
    cases he

/-- A lookup of an object, with another attribute, a level more and no limit of walks.  Each of the
three resources is greater in the second run. -/
theorem run_builtin_of_more_levels :
    let settings : Settings := { maxWalks := some 2, maxLookupDepth := 1 }
    let more : Settings := { maxWalks := none, maxLookupDepth := 2 }
    let object : Attribute := ⟨.object, .object [("x", .null)]⟩
    let evaluator := builtin "k" [("a", object)] settings false
    let other := builtin "k" [("a", object), ("b", ⟨.null, .null⟩)] more false
    let doc := Document.ofValue (.object [("s", .object [("k.Object.Lookup", .string "a")])])
    ∃ report doc', (evaluator.run doc).value = (.ok report, doc') ∧
      doc'.toValue = .object [("s", .object [("x", .null)])] ∧
      (other.run doc).value = (.ok report, doc') := by
  intro settings more object evaluator other doc
  have hobject : object.value.Ordered := ⟨List.pairwise_singleton _ _, trivial, trivial⟩
  have ha : Attributes.Ordered [("a", object)] := List.forall_mem_singleton.mpr hobject
  have ha' : Attributes.Ordered [("a", object), ("b", ⟨.null, .null⟩)] :=
    List.forall_mem_cons.mpr ⟨hobject, List.forall_mem_singleton.mpr trivial⟩
  have hmore : ∀ name a, Fields.find? name [("a", object)] = some a →
      Fields.find? name [("a", object), ("b", ⟨.null, .null⟩)] = some a := by
    intro name a hf
    by_cases hname : "a" = name
    · simpa [Fields.find?, hname] using hf
    · simp [Fields.find?, hname] at hf
  have hdoc : (Value.object [("s", .object [("k.Object.Lookup", .string "a")])]).Ordered :=
    ⟨List.pairwise_singleton _ _, ⟨List.pairwise_singleton _ _, trivial, trivial⟩, trivial⟩
  have hreach : doc.Reachable := .ofValue hdoc
  have hmay : evaluator.MayWalk 1 := by
    intro limit hl
    obtain rfl : 2 = limit := Option.some.inj hl
    exact Nat.lt_succ_self 1
  have hidle : (Value.object [("s", .object [("x", .null)])]).EveryKey
      evaluator.registry.Idle := by
    have hnone : ∀ key ∈ ["s", "x"], evaluator.registry.phasesFor key = [] := by decide +kernel
    refine ⟨?_, ⟨?_, trivial, trivial⟩, trivial⟩
    · exact Registry.phasesFor_isEmpty_iff.mp (List.isEmpty_iff.mpr (hnone "s" (by decide)))
    · exact Registry.phasesFor_isEmpty_iff.mp (List.isEmpty_iff.mpr (hnone "x" (by decide)))
  obtain ⟨doc', hvalue, hrun⟩ := exists_run_of_forecast .composites [.directives, .scalars]
    [.encoding] 1 (.object [("s", .object [("x", .null)])]) (by decide) hreach.inShape
    (rewriting_resolve ha settings.maxLookupDepth) rfl hmay rfl rfl (by decide +kernel)
    (by decide +kernel) hidle true
  have hstrict : more.strict = settings.strict := rfl
  have hdepth : settings.maxLookupDepth ≤ more.maxLookupDepth := by decide
  have hwalks : MoreWalks settings more := by
    intro limit hl
    cases hl
  exact ⟨_, doc', hrun, hvalue,
    run_builtin_of_more ha ha' hmore hstrict hdepth hwalks hreach hrun⟩

end Evaluator

end Expansion
