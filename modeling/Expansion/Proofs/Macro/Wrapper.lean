import Expansion.Proofs.Macro.Deletion
import Expansion.Proofs.Value.BottomUp

/-!
  Keys and their wrappers.

  After the first phase, the modifier of a key changes nothing but the wrapper, the object that
  holds the key, and leaves something in its place.  So its instructions are instructions on the
  wrapper alone, put below the path of the wrapper (`Instruction.under`), and the modifier is an
  edit of the wrapper (`Modifier.Local.effect?_eq_edit?`).  What it does there is told by the
  definition of the macro, by the value of the key, and by the number of fields that the wrapper had
  when the key was visited (`Macro.Definition.asks?`, `Macro.asks?_of_builtin`).
-/

namespace Expansion

/-! ## Instructions below a path -/

namespace Instruction

variable {i : Instruction} {is : List Instruction} {w : Path} {v v' c : Value}

/-- The instruction with a prefix to its paths. -/
def under (w : Path) : Instruction → Instruction
  | set path x => set (w ++ path) x
  | overlay path x => overlay (w ++ path) x
  | delete path => delete (w ++ path)
  | transform source target form => transform (w ++ source) (w ++ target) form

/-- The instruction without the first keys of its paths. -/
def below (n : Nat) : Instruction → Instruction
  | set path x => set (path.drop n) x
  | overlay path x => overlay (path.drop n) x
  | delete path => delete (path.drop n)
  | transform source target form => transform (source.drop n) (target.drop n) form

/-- The prefix of an instruction can be taken off again. -/
@[simp] theorem below_under (w : Path) (i : Instruction) : (i.under w).below w.length = i := by
  cases i <;> simp [under, below]

/-- The instruction leaves the root in place. -/
def Stays : Instruction → Prop
  | delete path => path ≠ []
  | _ => True

theorem Ordered.below (h : i.Ordered) (n : Nat) : (i.below n).Ordered := by
  cases i <;> exact h

/-- An instruction that brings in a value in order keeps the order. -/
theorem Ordered.effect? (h : i.Ordered) (hv : v.Ordered) (he : i.effect? v = some v') :
    v'.Ordered := by
  cases i with
  | set path x => exact hv.write? h he
  | delete path => exact hv.remove? he
  | overlay path x =>
    simp only [Instruction.effect?, Value.overlay?] at he
    split at he
    · obtain ⟨target, ht, he⟩ := Option.bind_eq_some_iff.mp he
      split at he
      · exact hv.write? ((hv.get? ht).merge h) he
      · contradiction
    · obtain rfl := Option.some.inj he
      exact hv
  | transform source target form =>
    obtain ⟨x, -, he⟩ := Option.bind_eq_some_iff.mp he
    obtain ⟨text, -, he⟩ := Option.bind_eq_some_iff.mp he
    have htext : (Value.string text).Ordered := trivial
    exact hv.write? htext he

/-- Instructions that bring in values in order keep the order. -/
theorem ordered_of_effects? (h : ∀ i ∈ is, i.Ordered) (hv : v.Ordered)
    (he : effects? is v = some v') : v'.Ordered := by
  induction is generalizing v with
  | nil =>
    obtain rfl := Option.some.inj he
    exact hv
  | cons i rest ih =>
    obtain ⟨hi, hrest⟩ := List.forall_mem_cons.mp h
    obtain ⟨u, hu, he⟩ := Option.bind_eq_some_iff.mp he
    exact ih hrest (hi.effect? hv hu) he

/-- An instruction below a path is an edit at the path. -/
theorem effect?_under (hv : v.Ordered) (hc : v.get? w = some c) (hi : i.Stays) :
    (i.under w).effect? v = v.edit? w i.effect? := by
  cases i with
  | set path x => exact Value.write?_append hc path x
  | overlay path x => exact Value.overlay?_append hv hc path x
  | delete path => exact Value.remove?_append hc hi
  -- The source is read below the path too, so the whole chain of steps moves there.
  | transform source target form =>
    show (v.get? (w ++ source)).bind _ = _
    rw [Value.edit?_of_get? hc, Value.get?_append, hc, Option.bind_some, effect?, Option.bind_assoc]
    refine congrArg _ (funext fun x => ?_)
    rw [Option.bind_assoc]
    refine congrArg _ (funext fun text => ?_)
    rw [Value.write?_append hc, Value.edit?_of_get? hc]

/-- Instructions below a path are an edit at the path.  One after the other: each finds the wrapper
where it was, and what it makes of it. -/
theorem effects?_under (hv : v.Ordered) (hc : (v.get? w).isSome) (ho : ∀ i ∈ is, i.Ordered)
    (hs : ∀ i ∈ is, i.Stays) : effects? (is.map (under w)) v = v.edit? w (effects? is) := by
  induction is generalizing v with
  | nil =>
    obtain ⟨c, hc⟩ := Option.isSome_iff_exists.mp hc
    rw [Value.edit?_of_get? hc]
    exact (Value.write?_self hv hc).symm
  | cons i rest ih =>
    obtain ⟨hi, hrest⟩ := List.forall_mem_cons.mp ho
    obtain ⟨hstays, hothers⟩ := List.forall_mem_cons.mp hs
    have hleft : ∀ v', v.edit? w i.effect? = some v' →
        effects? (rest.map (under w)) v' = v'.edit? w (effects? rest) := fun v' hv' =>
      ih (hv.edit? (fun c c' => hi.effect?) hv')
        (Value.isSome_get?_of_edit? hv hv' (Nat.le_refl _) hc) hrest hothers
    obtain ⟨c, hc⟩ := Option.isSome_iff_exists.mp hc
    rw [List.map_cons, effects?, effect?_under hv hc hstays, Option.bind_congr hleft,
      Value.bind_edit?]
    rfl

end Instruction

/-! ## Modifiers as edits of their wrappers -/

namespace Modifier

variable {m : Modifier} {is : List Instruction} {v : Value}

/-- What a modifier makes of the value of its wrapper. -/
def act? (m : Modifier) : Value → Option Value :=
  Instruction.effects? (m.instructions.map (Instruction.below m.wrapper.length))

/-- The modifier changes nothing but its wrapper, which stays. -/
def Local (m : Modifier) (is : List Instruction) : Prop :=
  m.instructions = is.map (Instruction.under m.wrapper) ∧ ∀ i ∈ is, i.Stays

/-- What a local modifier makes of its wrapper, by its instructions below the wrapper. -/
theorem Local.act?_eq (h : m.Local is) : m.act? = Instruction.effects? is := by
  have hbelow : m.instructions.map (Instruction.below m.wrapper.length) = is := by
    rw [h.1, List.map_map]
    exact List.map_id'' (Instruction.below_under m.wrapper) is
  rw [act?, hbelow]

/-- A local modifier brings in the values that its instructions bring in. -/
theorem Local.ordered_iff (h : m.Local is) : m.Ordered ↔ ∀ i ∈ is, i.Ordered := by
  rw [Ordered, h.1, List.forall_mem_map]
  refine forall₂_congr fun i _ => ?_
  cases i <;> rfl

/-- A modifier is an edit of its wrapper. -/
theorem Local.effect?_eq_edit? (h : m.Local is) (ho : m.Ordered) (hv : v.Ordered)
    (hw : (v.get? m.wrapper).isSome) : m.effect? v = v.edit? m.wrapper m.act? := by
  rw [effect?, h.act?_eq, h.1]
  exact Instruction.effects?_under hv hw (h.ordered_iff.mp ho) h.2

/-- A local modifier keeps the order in its wrapper. -/
theorem Local.ordered_of_act? (h : m.Local is) (ho : m.Ordered) {c c' : Value} (hc : c.Ordered)
    (he : m.act? c = some c') : c'.Ordered := by
  rw [h.act?_eq] at he
  exact Instruction.ordered_of_effects? (h.ordered_iff.mp ho) hc he

/-- The effects of modifiers one after the other, as a fold. -/
theorem effectEach?_eq_foldlM (ms : List Modifier) (v : Value) :
    effectEach? ms v = ms.foldlM (fun v m => m.effect? v) v := by
  induction ms generalizing v with
  | nil => rfl
  | cons m rest ih => rw [effectEach?, List.foldlM_cons, funext ih]; rfl

end Modifier

/-! ## What a key asks of its wrapper -/

namespace Macro

/-- The text that the macro makes of its value, by its verb. -/
def Definition.form? (definition : Definition) : Option Transform :=
  if definition.verb = "Join" then some .join
  else if definition.verb = "AsJSON" then some .json
  else if definition.verb = "AsYAML" then some .yaml
  else none

/-- The value of the attribute that a text names. -/
def Definition.named? (definition : Definition) (attributes : Attributes) : Value → Option Value
  | .string s => (attributes.lookup s definition.returnType).toOption
  | _ => none

/-- A value names that of an attribute when it is a text and the attribute is found, with the type
that the macro returns. -/
theorem Definition.named?_eq_some_iff {definition : Definition} {attributes : Attributes}
    {x y : Value} :
    definition.named? attributes x = some y ↔
      ∃ s, x = .string s ∧ attributes.lookup s definition.returnType = .ok y := by
  constructor
  · intro h
    unfold named? at h
    split at h
    · rename_i s
      refine ⟨s, rfl, ?_⟩
      cases hl : attributes.lookup s definition.returnType with
      | error e => simp [hl, Except.toOption] at h
      | ok z =>
        rw [hl] at h
        exact congrArg Except.ok (Option.some.inj h)
    · contradiction
  · rintro ⟨s, rfl, hl⟩
    rw [named?, hl]
    rfl

/-- What a key asks of the object that holds it, by the fields of the object and the value of the
key. -/
def Definition.asks? (definition : Definition) (attributes : Attributes)
    (resolve : Value → Logged (Except MacroError Value)) (fields : Fields Value) (name : String)
    (x : Value) : Option (List Instruction) :=
  match definition.form? with
  | some form => some [.transform [.field name] [] form]
  | none =>
    (definition.named? attributes x).bind fun y =>
      if definition.returnType.isContainer then
        (resolve y).value.toOption.map fun z =>
          if fields.length = 1 then [.set [] z] else [.delete [.field name], .overlay [] z]
      else some [.set [] y]

section

variable {definition : Definition} {attributes : Attributes}
  {resolve : Value → Logged (Except MacroError Value)} {fields : Fields Value} {name : String}
  {x y : Value}

/-- A macro that makes a text asks for the text of what its key holds. -/
theorem Definition.asks?_of_form {form : Transform} (h : definition.form? = some form) :
    definition.asks? attributes resolve fields name x
      = some [.transform [.field name] [] form] := by
  rw [asks?, h]

theorem Definition.asks?_of_lookup (h : definition.form? = none) :
    definition.asks? attributes resolve fields name x =
      (definition.named? attributes x).bind fun y =>
        if definition.returnType.isContainer then
          (resolve y).value.toOption.map fun z =>
            if fields.length = 1 then [.set [] z] else [.delete [.field name], .overlay [] z]
        else some [.set [] y] := by
  rw [asks?, h]

end

/-- What a key calls in a phase is one of the built-in definitions of the phase. -/
theorem definition_of_lookup {space : String} {attributes : Attributes} {phase : Phase}
    {key : String} {found : Invocation × Factory}
    (hl : (Registry.builtin space attributes).lookup phase key = some found) :
    found.1.definition ∈ (builtins []).map Registered.definition ∧
      found.1.definition.phase = phase := by
  obtain ⟨r, hr, hd, -, hp⟩ := (Registry.consistsOf_builtin space attributes).mem_of_lookup hl
  -- The definitions are the same for all attributes.
  have hdefinitions : (builtins attributes).map Registered.definition
      = (builtins []).map Registered.definition := rfl
  exact ⟨hdefinitions ▸ hd ▸ List.mem_map_of_mem hr, hd ▸ hp⟩

/-- Lookups of composites are made in the third phase. -/
theorem phase_of_container {space : String} {attributes : Attributes} {phase : Phase}
    {key : String} {found : Invocation × Factory}
    (hl : (Registry.builtin space attributes).lookup phase key = some found)
    (hc : found.1.definition.returnType.isContainer = true) : phase = .composites := by
  obtain ⟨hd, hp⟩ := definition_of_lookup hl
  have hall : ∀ d ∈ (builtins []).map Registered.definition,
      d.returnType.isContainer = true → d.phase = .composites := by
    decide
  exact hp.symm.trans (hall _ hd hc)

/-- Of the built-in macros, all but the deletion are lookups or make a text, of an array alone if it
is joined. -/
theorem form?_of_mem_builtins {attributes : Attributes} {r : Registered}
    (hr : r ∈ builtins attributes) (hp : r.definition.phase ≠ .directives) :
    (r.definition.form? = none ∧ r.factory = lookup attributes) ∨
      ∃ accepted form, r.definition.form? = some form ∧ r.factory = encode accepted form ∧
        (form = .join → accepted = [.array]) := by
  simp only [builtins, List.mem_cons, List.not_mem_nil, or_false] at hr
  rcases hr with rfl | rfl | rfl | rfl | rfl | rfl | rfl | rfl | rfl
  · exact absurd rfl hp
  · exact Or.inl ⟨rfl, rfl⟩
  · exact Or.inl ⟨rfl, rfl⟩
  · exact Or.inl ⟨rfl, rfl⟩
  · exact Or.inl ⟨rfl, rfl⟩
  · exact Or.inl ⟨rfl, rfl⟩
  · exact Or.inr ⟨_, _, rfl, rfl, fun _ => rfl⟩
  · exact Or.inr ⟨_, _, rfl, rfl, fun h => by cases h⟩
  · exact Or.inr ⟨_, _, rfl, rfl, fun h => by cases h⟩

section

variable {attributes : Attributes} {doc : Document} {branch : Branch} {invocation : Invocation}
  {phase : Phase} {space : String} {resolve : Value → Logged (Except MacroError Value)}
  {u : Value} {m : Modifier}

/-- A lookup reads the name of its attribute from the text that its key holds.  No other kind is
accepted, so there is a text where the branch leads. -/
theorem eq_string_of_lookupAttribute (h : doc.InShape)
    (hu : doc.toValue.get? branch.path = some u) (hk : branch.kind = u.kind) {s : String}
    {y : Value} (hl : lookupAttribute attributes ⟨doc, phase, space, resolve⟩ branch invocation
      = .ok (s, y)) : u = .string s := by
  simp only [lookupAttribute, expectInput, bind, Except.bind] at hl
  split at hl
  · contradiction
  rename_i hin
  split at hin
  · rename_i hcontains
    obtain ⟨t, rfl⟩ := Value.exists_eq_string (v := u) (by simpa [hk] using hcontains)
    rw [h.getString_of_get? hu] at hl
    simp only [Except.mapError] at hl
    split at hl
    · contradiction
    · obtain ⟨rfl, -⟩ := Prod.mk.inj (Except.ok.inj hl)
      rfl
  · contradiction

/-- What a lookup finds is named by what its key holds. -/
theorem named?_of_lookupAttribute (h : doc.InShape) (hu : doc.toValue.get? branch.path = some u)
    (hk : branch.kind = u.kind) {s : String} {y : Value}
    (hl : lookupAttribute attributes ⟨doc, phase, space, resolve⟩ branch invocation
      = .ok (s, y)) :
    invocation.definition.named? attributes u = some y := by
  rw [eq_string_of_lookupAttribute h hu hk hl]
  exact Definition.named?_eq_some_iff.mpr ⟨s, rfl, lookup_of_lookupAttribute hl⟩

/-- What the modifier of a key does is what the key asks of its wrapper.  The factory reads the
document by path; here that is told by the value at the wrapper. -/
theorem asks?_of_builtin (h : doc.InShape) {w : Path} {name : String} {fields : Fields Value}
    (hpath : branch.path = w ++ [.field name]) (hw : doc.toValue.get? w = some (.object fields))
    (hu : doc.toValue.get? branch.path = some u) (hk : branch.kind = u.kind) {r : Registered}
    (hr : r ∈ builtins attributes) (hp : r.definition.phase ≠ .directives)
    (hd : r.definition = invocation.definition)
    (hf : (r.factory ⟨doc, phase, space, resolve⟩ branch invocation).value = .ok m) :
    m.path = branch.path ∧ ∃ is,
      invocation.definition.asks? attributes resolve fields name u = some is ∧ m.Local is := by
  have hwrapper : wrapper branch = w := wrapper_of_path hpath
  have hlocal : ∀ {is instructions}, instructions = is.map (Instruction.under w) →
      (∀ i ∈ is, i.Stays) → (Modifier.bound branch invocation instructions).Local is := by
    intro is instructions hi hs
    have hw : (Modifier.bound branch invocation instructions).wrapper = w :=
      Modifier.wrapper_of_path hpath
    exact ⟨by rw [hw]; exact hi, hs⟩
  -- A lookup writes or overlays what it finds, an encoder makes a text of what its key holds.
  rcases form?_of_mem_builtins hr hp with ⟨hform, hfactory⟩ |
      ⟨accepted, form, hform, hfactory, -⟩
  · rw [hfactory] at hf
    obtain ⟨⟨s, y⟩, hl, hm⟩ := value_lookup_eq_ok_iff.mp hf
    have hnamed := named?_of_lookupAttribute h hu hk hl
    rw [Definition.asks?_of_lookup (hd ▸ hform), hnamed, Option.bind_some]
    rcases modifierFor_eq_ok_iff.mp hm with ⟨hscalar, rfl⟩ | ⟨hcomposite, x, is, hx, hplace, rfl⟩
    · refine ⟨rfl, [.set [] y], by rw [hscalar]; rfl, hlocal ?_ ?_⟩
      · simp [hwrapper, Instruction.under]
      · simp [Instruction.Stays]
    · -- A composite goes in the place of a wrapper without other fields, else its fields go into
      -- it.
      have hput := (placeComposite_of_get? h (hwrapper ▸ hw) x).symm.trans hplace
      have hwidth : (Value.object fields).width = fields.length := rfl
      rw [hcomposite, if_pos rfl, hx]
      refine ⟨rfl, _, rfl, ?_⟩
      obtain rfl := Except.ok.inj hput
      rw [hwidth, hwrapper, hpath]
      split
      · exact hlocal (by simp [Instruction.under]) (by simp [Instruction.Stays])
      · exact hlocal (by simp [Instruction.under]) (by simp [Instruction.Stays])
  · rw [hfactory] at hf
    obtain ⟨-, rfl⟩ := value_encode_eq_ok_iff.mp hf
    refine ⟨rfl, _, Definition.asks?_of_form (hd ▸ hform), hlocal ?_ ?_⟩
    · simp [hwrapper, hpath, Instruction.under]
    · simp [Instruction.Stays]

end

end Macro

end Expansion
