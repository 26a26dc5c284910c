import Expansion.Proofs.Macro.InsideOut

/-!
  The last phase encodes from the inside out.

  The text of a value is made when its key runs, after all that is inside.  Then the object that
  holds the key is a text, so a second key of it finds nothing to encode and fails: a phase runs to
  the end exactly when no object holds two keys (`encoding_inside_out`).  Nothing else can fail,
  since JSON and YAML have a text for every value, whatever the value has become since the walk.
-/

namespace Expansion

namespace Registry

variable {space : String} {attributes : Attributes} {resolve : Evaluator.Resolve}
  {fields : Fields Value} {entry : String × Value}

/-- An object with a key becomes the text of the rewritten value of the key; any other one keeps its
fields, with their values rewritten. -/
def encoded (registry : Registry) (_ rewritten : Fields Value) : Value :=
  (rewritten.findSome? (registry.text? .encoding)).getD (.object rewritten)

/-- The macros of the last phase make JSON or YAML. -/
theorem form?_encoding {key : String}
    (h : ((builtin space attributes).lookup .encoding key).isSome) :
    (builtin space attributes).form? .encoding key = some .json ∨
      (builtin space attributes).form? .encoding key = some .yaml := by
  obtain ⟨found, hl⟩ := Option.isSome_iff_exists.mp h
  obtain ⟨hd, hp⟩ := Macro.definition_of_lookup hl
  have hall : ∀ d ∈ (Macro.builtins []).map Macro.Registered.definition, d.phase = .encoding →
      d.form? = some .json ∨ d.form? = some .yaml := by
    decide
  rw [form?, hl]
  exact hall _ hd hp

/-- In the last phase the keys that call a macro are those that make a text. -/
theorem isSome_form?_encoding (space : String) (attributes : Attributes) (key : String) :
    ((builtin space attributes).form? .encoding key).isSome
      = ((builtin space attributes).lookup .encoding key).isSome := by
  cases hl : ((builtin space attributes).lookup .encoding key).isSome with
  | true => rcases form?_encoding hl with hform | hform <;> rw [hform] <;> rfl
  | false =>
    rw [form?, Option.isNone_iff_eq_none.mp (Option.isSome_eq_false_iff.mp hl)]
    rfl

/-- Every value has a text in the last phase. -/
theorem exists_text?_encoding (h : ((builtin space attributes).lookup .encoding entry.1).isSome)
    (x : Value) : ∃ text : String,
      (builtin space attributes).text? .encoding (entry.1, x) = some (.string text) := by
  rw [text?]
  rcases form?_encoding h with hform | hform
  · rw [hform]
    exact ⟨_, rfl⟩
  · rw [hform]
    exact ⟨_, rfl⟩

/-- One key encodes its object, and two fail.  The order of the two does not matter: whichever comes
first leaves a text without fields. -/
theorem runKeys?_encoding (ho : Fields.Ordered fields) :
    (builtin space attributes).runKeys? attributes resolve .encoding fields
        (.object (Value.rewriteFields (builtin space attributes).encoded fields))
      = if ((builtin space attributes).turns .encoding fields).length ≤ 1 then
          some ((builtin space attributes).encoded fields
            (Value.rewriteFields (builtin space attributes).encoded fields))
        else none := by
  have hcalled : ∀ entry ∈ (builtin space attributes).turns .encoding fields, entry ∈ fields ∧
      ((builtin space attributes).lookup .encoding entry.1).isSome := fun entry he =>
    mem_turns.mp he
  have hform : ∀ entry ∈ (builtin space attributes).turns .encoding fields,
      ∃ form, (builtin space attributes).form? .encoding entry.1 = some form := by
    intro entry he
    rcases form?_encoding (hcalled entry he).2 with hform | hform
    · exact ⟨_, hform⟩
    · exact ⟨_, hform⟩
  rw [runKeys?, encoded, findSome?_text?, turns_rewriteFields]
  -- By the number of keys: none, one, or two and more.
  match (builtin space attributes).turns .encoding fields, hcalled, hform with
  | [], _, _ => rfl
  | [entry], hcalled, hform =>
    obtain ⟨hmem, hlookup⟩ := hcalled entry List.mem_cons_self
    obtain ⟨form, hf⟩ := hform entry List.mem_cons_self
    obtain ⟨text, htext⟩ := exists_text?_encoding hlookup
      (entry.2.rewrite (builtin space attributes).encoded)
    rw [List.foldlM_cons, act?_rewritten_of_form ho hmem hf, htext]
    simp [htext]
  | first :: second :: rest, hcalled, hform =>
    obtain ⟨hmem, hlookup⟩ := hcalled first List.mem_cons_self
    obtain ⟨form, hf⟩ := hform first List.mem_cons_self
    obtain ⟨form', hf'⟩ := hform second (List.mem_cons_of_mem first List.mem_cons_self)
    obtain ⟨text, htext⟩ := exists_text?_encoding hlookup
      (first.2.rewrite (builtin space attributes).encoded)
    have hmany : ¬ (first :: second :: rest).length ≤ 1 := by
      rw [List.length_cons, List.length_cons]
      omega
    rw [List.foldlM_cons, act?_rewritten_of_form ho hmem hf, htext, if_neg hmany]
    -- The first key has left a text, in which the second finds nothing to encode.
    show (second :: rest).foldlM _ (Value.string text) = none
    rw [List.foldlM_cons, act?_string_of_form hf']
    rfl

end Registry

namespace Evaluator

variable {space : String} {attributes : Attributes} {settings : Settings} {kindCheck : Bool}
  {doc : Document} {pending : Pending}

/-- After a walk in the last phase, applying the modifiers succeeds if and only if no object at any
depth holds two keys that encode; and then every object with one has become the text of its value,
encoded inside before, and nothing else has changed. -/
theorem encoding_inside_out (ha : attributes.Ordered) (hr : doc.Reachable)
    (hw : ((builtin space attributes settings kindCheck).walk .encoding doc).value
      = .ok pending) :
    ((∃ n doc', (pending.applyAll doc).value = (.ok n, doc')) ↔
        ∀ path fields, doc.toValue.get? path = some (.object fields) →
          (fields.filter fun entry =>
            ((Registry.builtin space attributes).form? .encoding entry.1).isSome).length ≤ 1) ∧
      ∀ n doc', (pending.applyAll doc).value = (.ok n, doc') →
        doc'.toValue = doc.toValue.rewrite (Registry.builtin space attributes).encoded := by
  have h := hr.inShape
  have hev : (builtin space attributes settings kindCheck).Rewriting
      (builtin space attributes settings kindCheck).resolveFully := rewriting_resolve ha _
  have hkeys := fun p fields (hfields : doc.toValue.get? p = some (.object fields)) =>
    @Registry.runKeys?_encoding space attributes
      (builtin space attributes settings kindCheck).resolveFully fields (h.ordered.get? hfields).1
  -- So every object either becomes what it should, or fails.
  have hsettle : (Registry.builtin space attributes).KeysSettle attributes
      (builtin space attributes settings kindCheck).resolveFully .encoding
      (Registry.builtin space attributes).encoded doc.toValue := by
    intro p fields hfields
    rw [Registry.Settles, hkeys p fields hfields]
    split
    · exact Or.inr rfl
    · exact Or.inl rfl
  obtain ⟨hvalue, hsucceeds⟩ := applyAll_rewrites h (by decide) hev hw hsettle
  simp only [Registry.isSome_form?_encoding, ← Registry.length_turns]
  refine ⟨⟨?_, fun hone => ?_⟩, fun n doc' hrun => (hvalue n doc' hrun).1⟩
  · rintro ⟨n, doc', hrun⟩ path fields hfields
    have hsome := (hvalue n doc' hrun).2 path fields hfields
    rw [hkeys path fields hfields] at hsome
    split at hsome
    · assumption
    · contradiction
  · obtain ⟨doc', hrun⟩ := hsucceeds fun p fields hfields => by
      rw [hkeys p fields hfields, if_pos (hone p fields hfields)]
      rfl
    exact ⟨_, doc', hrun⟩

/-- JSON in YAML, with a field beside it, and an encoding in an array. -/
theorem encoding_inside_out_nested :
    let evaluator := builtin "k" [] {} false
    let doc := Document.ofValue (.object
      [("a", .object
        [("beside", .null),
         ("k.String.AsYAML", .object
          [("b", .object [("k.String.AsJSON", .array [.whole 1, .null])])])]),
       ("c", .array [.object [("k.String.AsJSON(d)", .object [])]])])
    ∃ pending doc', (evaluator.walk .encoding doc).value = .ok pending ∧
      (∃ n, (pending.applyAll doc).value = (.ok n, doc')) ∧
      doc'.toValue = .object
        [("a", .string "b: '[1,null]'\n"), ("c", .array [.string "\x7b\x7d"])] := by
  intro evaluator doc
  have ha : Attributes.Ordered [] := List.forall_mem_nil _
  have hr : doc.Reachable := .ofValue (by
    simp only [Value.Ordered, Value.OrderedFields, Value.OrderedItems, Fields.Ordered]
    decide)
  have hsome : (evaluator.walk .encoding doc).value.toOption.isSome = true := by decide +kernel
  have hsingle : ∀ fields ∈ doc.objects, (fields.filter fun entry =>
      ((Registry.builtin "k" []).form? .encoding entry.1).isSome).length ≤ 1 := by
    decide +kernel
  have hrewritten : doc.toValue.rewrite (Registry.builtin "k" []).encoded
      = .object [("a", .string "b: '[1,null]'\n"), ("c", .array [.string "\x7b\x7d"])] := by
    decide +kernel
  -- That the walk succeeds, that no object holds two keys and what the rewriting gives is computed.
  obtain ⟨pending, hw⟩ := exists_walk_of_isSome hsome
  obtain ⟨hruns, hvalue⟩ := encoding_inside_out ha hr hw
  obtain ⟨n, doc', hrun⟩ := hruns.mpr fun path fields hfields =>
    hsingle fields (Document.mem_objects_of_get? hfields)
  exact ⟨pending, doc', hw, ⟨n, hrun⟩, (hvalue n doc' hrun).trans hrewritten⟩

end Evaluator

end Expansion
