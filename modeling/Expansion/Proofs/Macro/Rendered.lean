import Expansion.Proofs.Macro.Turn

/-!
  What is made into text.

  A text hides the keys in it from later walks.  When a value is encoded as JSON or YAML, in the
  last phase, no key below it calls a macro any more (`rendered_expanded`).  Joining runs one phase
  earlier: there, keys that call a macro of the last phase may be left, and they end up in the text
  (`joined_unexpanded`).

  Both follow from the order of execution.  The macro reads below its own key, and of the keys of
  the phases so far the deeper ones have had their turn (`Covers.everyKey_below`).
-/

namespace Expansion.Evaluator

variable {space : String} {attributes : Attributes} {settings : Settings} {kindCheck : Bool}
  {levels : Nat} {doc d d' : Document} {phase : Phase} {m : Modifier}

/-- In every run of the built-in macros, whether over a document or over a value that is expanded
apart, whenever a value is rendered as text, no field name in it calls a macro; if it is joined, no
field name in it calls a macro of any phase before the last. -/
theorem rendered_expanded (ha : attributes.Ordered) (hr : doc.Reachable)
    (ht : RunTurn (builtin space attributes settings kindCheck)
      ((builtin space attributes settings kindCheck).resolve levels) Phase.all doc phase m d)
    {source target : Path} {form : Transform}
    (hi : Instruction.Turn m.instructions d (.transform source target form) d') {v : Value}
    (hv : d'.getValue source = .ok v) :
    v.EveryKey fun key => ∀ p, (form = .join → p ≠ .encoding) →
      (builtin space attributes settings kindCheck).registry.lookup p key = none := by
  obtain ⟨-, -, w, name, invocation, factory, hpath, -, hphase, hmakes⟩ := ht.makes ha hr.inShape
  -- Only the macros that make texts have such an instruction, and they have no other.
  generalize m.instructions = instructions at hi hmakes
  cases hmakes with
  | substitute => exact absurd hi.mem (by simp)
  | replace => exact absurd hi.mem (by simp)
  | merge => exact absurd hi.mem (by simp)
  | remove => exact absurd hi.mem (by simp)
  | encode form htext hform =>
    obtain ⟨hsame, rfl⟩ := hi.of_singleton
    obtain ⟨rfl, rfl, rfl⟩ := Instruction.transform.inj hsame
    obtain ⟨before, after, hall, hturn⟩ := ht.atTurn hr.inShape (rewriting_resolve ha levels)
      (not_occurs_calls_nil _ doc.toValue)
    obtain ⟨rest, hcovers, hsorted⟩ := hturn.first
    have hread : d'.toValue.get? m.path = some v := by
      rw [hpath, ← hcovers.shape.toOption_getValue, hv]
      rfl
    have ho : v.Ordered := hcovers.shape.ordered.get? hread
    refine (hcovers.everyKey_below hsorted hread).mono (fun key hkey p hp => ?_) ho
    -- The phase is one of those so far: the key of an encoding has its turn in the last.
    have hmem : p ∈ phase :: before.reverse := by
      refine Phase.mem_of_all_eq hall ?_
      by_cases hjoin : form = .join
      · rw [if_pos hjoin] at hform
        exact Or.inr ⟨hphase.symm.trans hform, hp hjoin⟩
      · rw [if_neg hjoin] at hform
        exact Or.inl (hphase.symm.trans hform)
    cases hl : (builtin space attributes settings kindCheck).registry.lookup p key with
    | none => rfl
    | some found => exact absurd ⟨p, by simpa using hmem, by simp [hl]⟩ hkey

/-- A key that encodes its value, inside an array that is encoded: it runs first and leaves a text,
so the array is read without it. -/
theorem rendered_expanded_of_encoded :
    let evaluator := builtin "kubegen" [] {} true
    let doc := Document.ofValue (.object
      [("kind", .string "Pod"),
       ("s", .object [("kubegen.String.AsJSON",
         .array [.object [("a", .object [("kubegen.String.AsJSON", .array [.whole 1])])]])])])
    let source : Path := [.field "s", .field "kubegen.String.AsJSON"]
    let read : Value := .array [.object [("a", .string "[1]")]]
    ∃ m d form, RunTurn evaluator evaluator.resolveFully Phase.all doc .encoding m d ∧
      Instruction.Turn m.instructions d (.transform source [.field "s"] form) d ∧
      d.getValue source = .ok read ∧
      read.EveryKey fun key => ∀ p, evaluator.registry.lookup p key = none := by
  intro evaluator doc source read
  have hmay : evaluator.MayWalk 0 := fun limit hlimit => by cases hlimit
  have hattributes : Attributes.Ordered [] := fun _ he => nomatch he
  have ho : (Value.object
      [("kind", .string "Pod"),
       ("s", .object [("kubegen.String.AsJSON",
         .array [.object [("a", .object [("kubegen.String.AsJSON", .array [.whole 1])])]])])]
      ).Ordered := by
    simp only [Value.Ordered, Value.OrderedItems, Value.OrderedFields, Fields.Ordered]
    decide
  have hreach : doc.Reachable := .ofValue ho
  obtain ⟨m, d, invocation, factory, ht, hd, hvalue, hnames, -, hphase, hmakes⟩ :=
    exists_turn_of_outermost .encoding [.directives, .scalars, .composites] [] [.field "s"]
      "kubegen.String.AsJSON" ["transform"]
      (.object [("kind", .string "Pod"), ("s", .object [("kubegen.String.AsJSON", read)])])
      hattributes hreach rfl hmay (by decide +kernel) (by decide +kernel)
  -- The outer key has its turn after the inner one, with the text of the latter in the array.
  obtain ⟨form, hinstructions, hform⟩ := hmakes.eq_transform hnames
  have hi : Instruction.Turn m.instructions d (.transform source [.field "s"] form) d := by
    rw [hinstructions]
    exact .now
  have hv : d.getValue source = .ok read := hd.getValue_of_get? (by rw [hvalue]; rfl)
  -- Joining belongs to the phase before, so every phase counts.
  have hencodes : form ≠ .join := by
    rintro rfl
    cases hphase.symm.trans hform
  have hkeys := rendered_expanded hattributes hreach ht hi hv
  have hread : read.Ordered := ⟨⟨List.pairwise_singleton _ _, trivial, trivial⟩, trivial⟩
  exact ⟨m, d, form, ht, hi, hv, hkeys.mono (fun key hnone p => hnone p (absurd · hencodes)) hread⟩

/-- A key that encodes its value is joined as it is when it is inside the array: it calls a macro of
the last phase, which finds nothing but a text. -/
theorem joined_unexpanded :
    let evaluator := builtin "kubegen" [] {} true
    let doc := Document.ofValue (.object
      [("kind", .string "Pod"),
       ("s", .object [("kubegen.String.Join",
         .array [.object [("kubegen.String.AsJSON", .array [.whole 1])]])])])
    let source : Path := [.field "s", .field "kubegen.String.Join"]
    ∃ m form v, RunTurn evaluator evaluator.resolveFully Phase.all doc .composites m doc ∧
      Instruction.Turn m.instructions doc (.transform source [.field "s"] form) doc ∧
      doc.getValue source = .ok v ∧
      ¬ v.EveryKey fun key => ∀ p, evaluator.registry.lookup p key = none := by
  intro evaluator doc source
  have hmay : evaluator.MayWalk 0 := fun limit hlimit => by cases hlimit
  have hattributes : Attributes.Ordered [] := fun _ he => nomatch he
  have hs : (Value.object [("kubegen.String.Join",
      .array [.object [("kubegen.String.AsJSON", .array [.whole 1])]])]).Ordered :=
    ⟨List.pairwise_singleton _ _,
      ⟨⟨List.pairwise_singleton _ _, ⟨trivial, trivial⟩, trivial⟩, trivial⟩, trivial⟩
  have ho : (Value.object [("kind", .string "Pod"), ("s", .object [("kubegen.String.Join",
      .array [.object [("kubegen.String.AsJSON", .array [.whole 1])]])])]).Ordered :=
    ⟨List.pairwise_pair.mpr (by decide), trivial, hs, trivial⟩
  have hreach : doc.Reachable := .ofValue ho
  obtain ⟨m, invocation, factory, ht, -, hnames, -, -, -, hmakes⟩ :=
    exists_turn_of_outline .composites [.directives, .scalars] [.encoding] [.field "s"]
      "kubegen.String.Join" ["transform"] hattributes hreach rfl hmay (by decide +kernel)
      (by decide +kernel)
  obtain ⟨form, hinstructions, -⟩ := hmakes.eq_transform hnames
  have hi : Instruction.Turn m.instructions doc (.transform source [.field "s"] form) doc := by
    rw [hinstructions]
    exact .now
  refine ⟨m, form, _, ht, hi, hreach.inShape.getValue_of_get?
    (by rw [Document.toValue_ofValue ho]; rfl), fun hkeys => ?_⟩
  -- The name in the array does call a macro.
  have hcalls : (evaluator.registry.lookup .encoding "kubegen.String.AsJSON").isSome = true := by
    decide +kernel
  rw [hkeys.1.1 .encoding] at hcalls
  contradiction

end Expansion.Evaluator
