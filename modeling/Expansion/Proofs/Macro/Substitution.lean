import Expansion.Proofs.Macro.InsideOut

/-!
  The second phase substitutes attributes for objects.

  A walk for scalars succeeds only when every lookup holds the name of an attribute that is declared
  with the type asked for, and has it.  Each lookup then writes the value in the place of its
  wrapper, and no write fails, whatever the ones before have left there.  The keys of an object run
  in descending order, so the last value is that of the first key (`foldlM_reverse_of_overwrites`);
  and an object that is replaced takes with it what was replaced inside.
-/

namespace Expansion

/-- Where some entries of a row overwrite what is there and the row runs from the back, what the
first of them writes is left. -/
theorem foldlM_reverse_of_overwrites {α β : Type} {called : α → Bool} {value : α → Option β}
    {step : β → α → Option β} {row : List α}
    (hcalled : ∀ a ∈ row, called a = true → ∃ y, value a = some y ∧ ∀ b, step b a = some y)
    (hother : ∀ a ∈ row, called a = false → value a = none) (b : β) :
    (row.filter called).reverse.foldlM step b = some ((row.findSome? value).getD b) := by
  induction row with
  | nil => rfl
  | cons a rest ih =>
    obtain ⟨hfirst, hcalled⟩ := List.forall_mem_cons.mp hcalled
    obtain ⟨hpass, hother⟩ := List.forall_mem_cons.mp hother
    have hrest := ih hcalled hother
    cases hc : called a with
    | false => rw [List.filter_cons_of_neg (by simp [hc]), hrest, List.findSome?_cons, hpass hc]
    -- It runs after all the others, and overwrites what they have left.
    | true =>
      obtain ⟨y, hy, hstep⟩ := hfirst hc
      rw [List.filter_cons_of_pos hc, List.reverse_cons, List.foldlM_append, hrest,
        List.findSome?_cons, hy]
      simp [hstep]

namespace Registry

/-- The value of the attribute that a lookup of scalars names. -/
def substitute? (registry : Registry) (attributes : Attributes) (entry : String × Value) :
    Option Value :=
  (registry.lookup .scalars entry.1).bind fun found =>
    found.1.definition.named? attributes entry.2

/-- An object with lookups becomes the value of the first, whatever is inside; any other one keeps
its fields, with their values rewritten. -/
def substituted (registry : Registry) (attributes : Attributes) (fields rewritten : Fields Value) :
    Value :=
  (fields.findSome? (registry.substitute? attributes)).getD (.object rewritten)

variable {space : String} {attributes : Attributes}

/-- The macros of the second phase are lookups of scalars. -/
theorem lookup_scalars {key : String} {found : Macro.Invocation × Macro.Factory}
    (hl : (builtin space attributes).lookup .scalars key = some found) :
    found.1.definition.form? = none ∧ found.1.definition.returnType.isContainer = false := by
  obtain ⟨hd, hp⟩ := Macro.definition_of_lookup hl
  have hall : ∀ d ∈ (Macro.builtins []).map Macro.Registered.definition, d.phase = .scalars →
      d.form? = none ∧ d.returnType.isContainer = false := by
    decide
  exact hall _ hd hp

/-- A lookup of scalars asks for its attribute in the place of the wrapper. -/
theorem asks?_scalars {resolve : Evaluator.Resolve} {fields : Fields Value}
    {entry : String × Value} {is : List Instruction}
    (h : (builtin space attributes).asks? attributes resolve .scalars fields entry = some is) :
    ∃ y, (builtin space attributes).substitute? attributes entry = some y ∧ is = [.set [] y] := by
  obtain ⟨found, hl, hasks⟩ := Option.bind_eq_some_iff.mp h
  obtain ⟨hform, hscalar⟩ := lookup_scalars hl
  rw [Macro.Definition.asks?_of_lookup hform, hscalar] at hasks
  obtain ⟨y, hy, hasks⟩ := Option.bind_eq_some_iff.mp hasks
  refine ⟨y, ?_, (Option.some.inj hasks).symm⟩
  rw [substitute?, hl]
  exact hy

end Registry

namespace Evaluator

variable {space : String} {attributes : Attributes} {settings : Settings} {kindCheck : Bool}
  {resolve : Resolve} {doc : Document} {pending : Pending}

/-- The keys of an object leave the value of the first.  A lookup does not read the object, so what
was replaced inside before makes no difference. -/
theorem runKeys?_scalars (h : doc.InShape)
    (hw : ((builtin space attributes settings kindCheck).walkWith resolve .scalars doc).value
      = .ok pending) {p : Path} {fields : Fields Value}
    (hfields : doc.toValue.get? p = some (.object fields)) (rewritten : Fields Value) :
    (Registry.builtin space attributes).runKeys? attributes resolve .scalars fields
        (.object rewritten)
      = some ((Registry.builtin space attributes).substituted attributes fields rewritten) := by
  -- A lookup overwrites its object, and a field that calls no macro has nothing to substitute.
  refine foldlM_reverse_of_overwrites (fun entry he hcalled => ?_) (fun entry _ hpass => ?_) _
  · obtain ⟨is, hasks⟩ :=
      exists_asks h (by decide) hw hfields (Registry.mem_turns.mpr ⟨he, hcalled⟩)
    obtain ⟨y, hy, rfl⟩ := Registry.asks?_scalars hasks
    refine ⟨y, hy, fun c => ?_⟩
    rw [Registry.act?, hasks]
    rfl
  · rw [Registry.substitute?, Option.isNone_iff_eq_none.mp (Option.isSome_eq_false_iff.mp hpass)]
    rfl

/-- A walk for scalars succeeds only when every lookup holds the name of an attribute that is
declared with the type that the macro returns, and has it.  Then applying the modifiers succeeds,
and replaces the outermost objects with lookups by the value of the first, the smallest key. -/
theorem scalars_substitute (ha : attributes.Ordered) (hr : doc.Reachable)
    (hw : ((builtin space attributes settings kindCheck).walk .scalars doc).value = .ok pending) :
    (∀ path name x found, doc.toValue.get? (path ++ [.field name]) = some x →
        (Registry.builtin space attributes).lookup .scalars name = some found →
        ∃ s y, x = .string s ∧
          Fields.find? s attributes = some ⟨found.1.definition.returnType, y⟩ ∧
          y.kind = found.1.definition.returnType) ∧
      ∃ doc', (pending.applyAll doc).value = (.ok pending.len, doc') ∧
        doc'.toValue =
          doc.toValue.rewrite ((Registry.builtin space attributes).substituted attributes) := by
  have h := hr.inShape
  have hev : (builtin space attributes settings kindCheck).Rewriting
      (builtin space attributes settings kindCheck).resolveFully := rewriting_resolve ha _
  refine ⟨fun path name x found hx hl => ?_, ?_⟩
  · -- The key is one that runs, and what it asks for is the value of its attribute.
    obtain ⟨fields, hfields, hx⟩ := Value.get?_field_eq_some_iff.mp hx
    have hturn : (name, x) ∈ (Registry.builtin space attributes).turns .scalars fields :=
      Registry.mem_turns.mpr ⟨Fields.mem_of_find? hx, Option.isSome_iff_exists.mpr ⟨found, hl⟩⟩
    obtain ⟨is, hasks⟩ := exists_asks h (by decide) hw hfields hturn
    obtain ⟨y, hy, -⟩ := Registry.asks?_scalars hasks
    rw [Registry.substitute?, hl] at hy
    obtain ⟨s, rfl, hlookup⟩ := Macro.Definition.named?_eq_some_iff.mp hy
    obtain ⟨hdeclared, hkind⟩ := Attributes.lookup_eq_ok_iff.mp hlookup
    exact ⟨s, y, rfl, hdeclared, hkind⟩
  · -- The keys of an object never fail, so neither does the phase.
    have hkeys := fun p fields (hfields : doc.toValue.get? p = some (.object fields)) =>
      runKeys?_scalars h hw hfields
        (Value.rewriteFields ((Registry.builtin space attributes).substituted attributes) fields)
    obtain ⟨hvalue, hsucceeds⟩ := applyAll_rewrites h (by decide) hev hw
      fun p fields hfields => Or.inr (hkeys p fields hfields)
    obtain ⟨doc', hrun⟩ := hsucceeds fun p fields hfields => by
      rw [hkeys p fields hfields]
      rfl
    exact ⟨doc', hrun, (hvalue _ doc' hrun).1⟩

/-- Two lookups in one object, one more inside, and one with an argument. -/
theorem scalars_substitute_nested :
    let attributes : Attributes :=
      [("a", .inferred (.string "x")), ("b", .inferred (.boolean true))]
    let evaluator := builtin "k" attributes {} false
    let doc := Document.ofValue (.object
      [("l", .array
        [.object
          [("k.Boolean.Lookup", .string "b"), ("k.String.Lookup", .string "a"),
           ("m", .object [("k.String.Lookup", .string "a")])]]),
       ("n", .object
        [("keep", .null), ("o", .object [("k.String.Lookup(c)", .string "a"), ("p", .null)])])])
    ∃ pending doc', (evaluator.walk .scalars doc).value = .ok pending ∧
      (pending.applyAll doc).value = (.ok pending.len, doc') ∧
      doc'.toValue = .object
        [("l", .array [.boolean true]), ("n", .object [("keep", .null), ("o", .string "x")])] := by
  intro attributes evaluator doc
  have ha : attributes.Ordered :=
    List.forall_mem_cons.mpr ⟨trivial, List.forall_mem_singleton.mpr trivial⟩
  have hr : doc.Reachable := .ofValue (by
    simp only [Value.Ordered, Value.OrderedFields, Value.OrderedItems, Fields.Ordered]
    decide)
  have hsome : (evaluator.walk .scalars doc).value.toOption.isSome = true := by decide +kernel
  -- What the rewriting gives can be computed.
  have hrewritten : doc.toValue.rewrite ((Registry.builtin "k" attributes).substituted attributes)
      = .object
        [("l", .array [.boolean true]),
         ("n", .object [("keep", .null), ("o", .string "x")])] := by
    decide +kernel
  obtain ⟨pending, hw⟩ := exists_walk_of_isSome hsome
  obtain ⟨-, doc', hrun, hvalue⟩ := scalars_substitute ha hr hw
  exact ⟨pending, doc', hw, hrun, hvalue.trans hrewritten⟩

end Evaluator

end Expansion
