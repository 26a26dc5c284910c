import Expansion.Proofs.Macro.Turn

/-!
  What a macro leaves in the place of its wrapper.

  A macro is named for the kind that it returns.  After its modifier has run, a scalar lookup or a
  macro that makes a text has left that kind at the wrapper.  A composite lookup need not: the kind
  is asked of the attribute, but what is written is what the attribute expands to; and into a
  wrapper with other fields it is merged, which stays an object (`kind_at_wrapper`).  So the kind is
  wrong when the value of the attribute expands to another kind, and when an array that expands to
  nothing is merged into an object (`array_lookup_leaves_object`).
-/

namespace Expansion

namespace Value

/-- What is removed under a name is removed from an object. -/
theorem get?_of_remove?_field {w : Path} {name : String} {v v' : Value}
    (h : v.remove? (w ++ [.field name]) = some v') :
    ∃ fields, v'.get? w = some (.object fields) := by
  rw [remove?_concat] at h
  obtain ⟨c, hc, h⟩ := Option.bind_eq_some_iff.mp h
  obtain ⟨c', hdrop, hw⟩ := Option.bind_eq_some_iff.mp h
  have hget := get?_of_write? hw []
  rw [List.append_nil] at hget
  -- A name leads into an object alone.
  cases c with
  | scalar s => simp [drop?] at hdrop
  | array items => simp [drop?, Key.index?] at hdrop
  | object fields =>
    simp only [drop?, Key.name?, Option.bind_eq_bind, Option.bind_some] at hdrop
    obtain ⟨x, -, hdrop⟩ := Option.bind_eq_some_iff.mp hdrop
    obtain rfl := Option.some.inj hdrop
    exact ⟨_, hget⟩

/-- An overlay keeps the kind of what it merges into. -/
theorem kind_of_overlay? {path : Path} {source v v' t : Value}
    (h : overlay? path source v = some v') (ht : v.get? path = some t) :
    ∃ t', v'.get? path = some t' ∧ t'.kind = t.kind := by
  rw [overlay?] at h
  split at h
  · rw [ht, Option.bind_some] at h
    split at h
    · have hget := get?_of_write? h []
      rw [List.append_nil] at hget
      exact ⟨_, hget, kind_merge t source⟩
    · contradiction
  · obtain rfl : v = v' := Option.some.inj h
    exact ⟨t, ht, rfl⟩

end Value

namespace Macro

/-- What the modifier of a built-in macro leaves at the wrapper, by the instructions that it has.
One case for each way in which a macro rewrites its wrapper; only a merge leaves the object that was
there. -/
theorem Makes.get?_of_effects {attributes : Attributes}
    {resolve : Value → Logged (Except MacroError Value)} {definition : Definition} {w : Path}
    {name : String} {instructions : List Instruction} {v v' : Value}
    (h : Makes attributes resolve definition w name instructions)
    (he : Instruction.effects? instructions v = some v') :
    (definition.returnType.isContainer = false → definition.returnType ≠ .null →
      ∃ u, v'.get? w = some u ∧ u.kind = definition.returnType) ∧
    (definition.returnType.isContainer = true →
      ∃ found x y u, attributes.lookup found definition.returnType = .ok x ∧
        (resolve x).value = .ok y ∧ v'.get? w = some u ∧
        (instructions = [.set w y] ∧ u = y ∨
          instructions = [.delete (w ++ [.field name]), .overlay w y] ∧ u.kind = .object)) := by
  -- What is written at the wrapper is found there.
  have hwritten : ∀ {x}, v.write? w x = some v' → v'.get? w = some x := by
    intro x hw
    have hget := Value.get?_of_write? hw []
    rwa [List.append_nil] at hget
  cases h with
  | @substitute found x hscalar hx =>
    obtain ⟨-, hkind⟩ := Attributes.lookup_eq_ok_iff.mp hx
    have hw : v.write? w x = some v' := by
      simpa [Instruction.effects?, Instruction.effect?] using he
    constructor
    · exact fun _ _ => ⟨x, hwritten hw, hkind⟩
    · intro hcomposite
      rw [hscalar] at hcomposite
      contradiction
  | @replace found x y hcomposite hx hy =>
    have hw : v.write? w y = some v' := by
      simpa [Instruction.effects?, Instruction.effect?] using he
    constructor
    · intro hscalar
      rw [hcomposite] at hscalar
      contradiction
    · exact fun _ => ⟨found, x, y, y, hx, hy, hwritten hw, Or.inl ⟨rfl, rfl⟩⟩
  | @merge found x y hcomposite hx hy =>
    obtain ⟨next, hd, he⟩ := Option.bind_eq_some_iff.mp he
    obtain ⟨last, ho, he⟩ := Option.bind_eq_some_iff.mp he
    obtain rfl : last = v' := Option.some.inj he
    -- The key was a field, so the wrapper is an object, and stays one.
    obtain ⟨fields, hfields⟩ := Value.get?_of_remove?_field hd
    obtain ⟨u, hu, hkind⟩ := Value.kind_of_overlay? ho hfields
    constructor
    · intro hscalar
      rw [hcomposite] at hscalar
      contradiction
    · exact fun _ => ⟨found, x, y, u, hx, hy, hu, Or.inr ⟨rfl, hkind⟩⟩
  | encode form htext hphase =>
    obtain ⟨last, ht, he⟩ := Option.bind_eq_some_iff.mp he
    obtain rfl : last = v' := Option.some.inj he
    obtain ⟨x, -, ht⟩ := Option.bind_eq_some_iff.mp ht
    obtain ⟨text, -, hw⟩ := Option.bind_eq_some_iff.mp ht
    rw [htext]
    constructor
    · exact fun _ _ => ⟨.string text, hwritten hw, rfl⟩
    · intro hcomposite
      contradiction
  | remove hnull =>
    rw [hnull]
    constructor
    · exact fun _ hne => absurd rfl hne
    · intro hcomposite
      contradiction

end Macro

namespace Evaluator

variable {space : String} {attributes : Attributes} {settings : Settings} {kindCheck : Bool}
  {levels : Nat} {doc d d' : Document} {phase : Phase} {m : Modifier}

/-- In every run of the built-in macros, whether over a document or over a value that is expanded
apart, whenever the modifier of a macro has run, there is a node at the wrapper of its key, unless
the macro is there to remove it.  A macro that returns a scalar leaves a value of the kind that it
returns.  One that returns a composite has looked up an attribute of that kind and expanded its
value; it leaves the expanded value, of whatever kind, if it was alone in its wrapper, and else an
object. -/
theorem kind_at_wrapper (ha : attributes.Ordered) (hr : doc.Reachable)
    (ht : RunTurn (builtin space attributes settings kindCheck)
      ((builtin space attributes settings kindCheck).resolve levels) Phase.all doc phase m d)
    (happ : (m.apply d).value = (.ok (), d')) :
    ∃ w name invocation factory, m.path = w ++ [.field name] ∧
      (builtin space attributes settings kindCheck).registry.lookup phase name
        = some (invocation, factory) ∧
      (invocation.definition.returnType.isContainer = false →
        invocation.definition.returnType ≠ .null →
        d'.existing w = .ok (some invocation.definition.returnType)) ∧
      (invocation.definition.returnType.isContainer = true → ∃ found x y,
        attributes.lookup found invocation.definition.returnType = .ok x ∧
        ((builtin space attributes settings kindCheck).resolve levels x).value = .ok y ∧
        (m.instructions = [.set w y] ∧ d'.existing w = .ok (some y.kind) ∨
          m.instructions = [.delete m.path, .overlay w y] ∧
            d'.existing w = .ok (some .object))) := by
  obtain ⟨hshape, hordered, w, name, invocation, factory, hpath, hlookup, -, hmakes⟩ :=
    ht.makes ha hr.inShape
  obtain ⟨hshape', heffect⟩ := (Modifier.mirrors_apply hordered).of_ok hshape happ
  obtain ⟨hscalar, hcomposite⟩ := hmakes.get?_of_effects heffect
  refine ⟨w, name, invocation, factory, hpath, hlookup, fun hcontainer hnull => ?_,
    fun hcontainer => ?_⟩
  · -- What the value holds at the wrapper, the document holds there.
    obtain ⟨u, hu, hkind⟩ := hscalar hcontainer hnull
    rw [hshape'.existing_of_get? hu, hkind]
  · obtain ⟨found, x, y, u, hx, hy, hu, hleft⟩ := hcomposite hcontainer
    refine ⟨found, x, y, hx, hy, ?_⟩
    rcases hleft with ⟨hi, rfl⟩ | ⟨hi, hkind⟩
    · exact Or.inl ⟨hi, hshape'.existing_of_get? hu⟩
    · refine Or.inr ⟨hpath ▸ hi, ?_⟩
      rw [hshape'.existing_of_get? hu, hkind]

/-- A text is looked up.  The modifier comes to its turn in the first walk of its phase, and leaves
the text of the attribute. -/
theorem kind_at_wrapper_of_string :
    let attributes : Attributes := [("a", ⟨.string, .string "x"⟩)]
    let evaluator := builtin "kubegen" attributes {} true
    let doc := Document.ofValue (.object
      [("kind", .string "Pod"), ("w", .object [("kubegen.String.Lookup", .string "a")])])
    ∃ m d', RunTurn evaluator evaluator.resolveFully Phase.all doc .scalars m doc ∧
      (m.apply doc).value = (.ok (), d') ∧ d'.existing [.field "w"] = .ok (some .string) := by
  intro attributes evaluator doc
  have hmay : evaluator.MayWalk 0 := fun limit hlimit => by cases hlimit
  have hattributes : attributes.Ordered := by
    intro entry he
    obtain rfl := List.mem_singleton.mp he
    trivial
  have ho : (Value.object [("kind", .string "Pod"),
      ("w", .object [("kubegen.String.Lookup", .string "a")])]).Ordered :=
    ⟨List.pairwise_pair.mpr (by decide), trivial,
      ⟨List.pairwise_singleton _ _, trivial, trivial⟩, trivial⟩
  have hreach : doc.Reachable := .ofValue ho
  obtain ⟨m, invocation, factory, ht, hpath, hnames, hordered, hlookup, -, hmakes⟩ :=
    exists_turn_of_outline .scalars [.directives] [.composites, .encoding] [.field "w"]
      "kubegen.String.Lookup" ["set"] hattributes hreach rfl hmay (by decide +kernel)
      (by decide +kernel)
  have htype : invocation.definition.returnType = .string := by
    have hreturns : (evaluator.registry.lookup .scalars "kubegen.String.Lookup").map
        (fun found => found.1.definition.returnType) = some .string := by decide +kernel
    rw [hlookup] at hreturns
    exact Option.some.inj hreturns
  -- Of the macros that rewrite a wrapper, those with a lone write are lookups.
  obtain ⟨x, hinstructions⟩ : ∃ x, m.instructions = [.set [.field "w"] x] := by
    generalize m.instructions = instructions at hnames hmakes
    cases hmakes with
    | substitute => exact ⟨_, rfl⟩
    | replace => exact ⟨_, rfl⟩
    | merge => simp [Instruction.name] at hnames
    | encode => simp [Instruction.name] at hnames
    | remove => simp [Instruction.name] at hnames
  -- The write has a place, so the modifier runs.
  obtain ⟨u, d', happ, -⟩ := (Modifier.mirrors_apply hordered).of_some hreach.inShape
    (v := .object [("kind", .string "Pod"), ("w", x)])
    (by rw [Document.toValue_ofValue ho, Modifier.effect?, hinstructions]; rfl)
  obtain ⟨w, name, invocation', factory', hpath', hlookup', hscalar, -⟩ :=
    kind_at_wrapper hattributes hreach ht happ
  obtain ⟨rfl, hkey⟩ := List.append_inj' (hpath.symm.trans hpath') rfl
  obtain rfl : "kubegen.String.Lookup" = name := by simpa using hkey
  obtain ⟨rfl, -⟩ := Prod.mk.inj (Option.some.inj (hlookup.symm.trans hlookup'))
  rw [htype] at hscalar
  exact ⟨m, d', ht, happ, hscalar rfl (by decide)⟩

/-- An array that expands to nothing is merged into an object, which stays one.  The key calls a
macro that returns an array, and the modifier succeeds, since there is nothing to add. -/
theorem array_lookup_leaves_object :
    let attributes : Attributes := [("a", ⟨.array, .array []⟩)]
    let evaluator := builtin "kubegen" attributes {} true
    let doc := Document.ofValue (.object
      [("kind", .string "Pod"),
       ("w", .object [("kubegen.Array.Lookup", .string "a"), ("x", .whole 1)])])
    ∃ m d' invocation factory,
      RunTurn evaluator evaluator.resolveFully Phase.all doc .composites m doc ∧
      m.path = [.field "w", .field "kubegen.Array.Lookup"] ∧
      evaluator.registry.lookup .composites "kubegen.Array.Lookup" = some (invocation, factory) ∧
      invocation.definition.returnType = .array ∧ (m.apply doc).value = (.ok (), d') ∧
      d'.existing [.field "w"] = .ok (some .object) := by
  intro attributes evaluator doc
  have hmay : evaluator.MayWalk 0 := fun limit hlimit => by cases hlimit
  have hattributes : attributes.Ordered := by
    intro entry he
    obtain rfl := List.mem_singleton.mp he
    trivial
  have ho : (Value.object [("kind", .string "Pod"), ("w", .object
      [("kubegen.Array.Lookup", .string "a"), ("x", .whole 1)])]).Ordered :=
    ⟨List.pairwise_pair.mpr (by decide), trivial,
      ⟨List.pairwise_pair.mpr (by decide), trivial, trivial, trivial⟩, trivial⟩
  have hreach : doc.Reachable := .ofValue ho
  obtain ⟨m, invocation, factory, ht, hpath, hnames, hordered, hlookup, -, hmakes⟩ :=
    exists_turn_of_outline .composites [.directives, .scalars] [.encoding] [.field "w"]
      "kubegen.Array.Lookup" ["delete", "overlay"] hattributes hreach rfl hmay (by decide +kernel)
      (by decide +kernel)
  have htype : invocation.definition.returnType = .array := by
    have hreturns : (evaluator.registry.lookup .composites "kubegen.Array.Lookup").map
        (fun found => found.1.definition.returnType) = some .array := by decide +kernel
    rw [hlookup] at hreturns
    exact Option.some.inj hreturns
  -- The attribute is the empty array, which expands to a value without parts.
  have hempty : ((evaluator.resolveFully (.array [])).value.map Value.hasParts).toOption
      = some false := by decide +kernel
  obtain ⟨y, hparts, hinstructions⟩ : ∃ y : Value, y.hasParts = false ∧ m.instructions
      = [.delete [.field "w", .field "kubegen.Array.Lookup"], .overlay [.field "w"] y] := by
    generalize m.instructions = instructions at hnames hmakes
    cases hmakes with
    | substitute => simp [Instruction.name] at hnames
    | replace => simp [Instruction.name] at hnames
    | encode => simp [Instruction.name] at hnames
    | remove => simp [Instruction.name] at hnames
    -- There is one attribute only, so it is the one that was looked up.
    | @merge found x y hcomposite hx hy =>
      obtain ⟨hfound, -⟩ := Attributes.lookup_eq_ok_iff.mp hx
      have hentry := List.mem_singleton.mp (Fields.mem_of_find? hfound)
      obtain rfl : x = .array [] := by simpa using congrArg (fun e => e.2.value) hentry
      rw [hy] at hempty
      exact ⟨y, Option.some.inj hempty, rfl⟩
  -- The key goes, and nothing is merged in.
  have hremains : doc.toValue.remove? [.field "w", .field "kubegen.Array.Lookup"]
      = some (.object [("kind", .string "Pod"), ("w", .object [("x", .whole 1)])]) := by
    rw [Document.toValue_ofValue ho]
    rfl
  have heffect : m.effect? doc.toValue
      = some (.object [("kind", .string "Pod"), ("w", .object [("x", .whole 1)])]) := by
    rw [Modifier.effect?, hinstructions, Instruction.effects?, Instruction.effect?, hremains]
    simp [Instruction.effects?, Instruction.effect?, Value.overlay?, hparts]
  obtain ⟨u, d', happ, hshape, hvalue⟩ :=
    (Modifier.mirrors_apply hordered).of_some hreach.inShape heffect
  refine ⟨m, d', invocation, factory, ht, hpath, hlookup, htype, happ, ?_⟩
  exact hshape.existing_of_get? (v := .object [("x", .whole 1)]) (by rw [hvalue]; rfl)

end Evaluator

end Expansion
