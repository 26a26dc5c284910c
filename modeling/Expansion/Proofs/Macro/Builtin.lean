import Expansion.Macro.Builtin
import Expansion.Proofs.Document.Walk
import Expansion.Proofs.Macro.Rewrite

/-!
  The built-in macros rewrite the wrapper of their key.

  What a key calls in the registry of the built-in macros is one of them
  (`Registry.ConsistsOf.mem_of_lookup`).  `Macro.Makes` lists the instructions that these ask for,
  by their definition.  All of them rewrite the wrapper with a value whose names are good
  (`Macro.Makes.rewrite`): a text, a scalar, or the value of an attribute after it is expanded
  apart.  That the latter is good is asked of the expansion (`Macro.Expands`).
-/

namespace Expansion

/-- The values of attributes are in order. -/
def Attributes.Ordered (attributes : Attributes) : Prop :=
  ∀ entry ∈ attributes, entry.2.value.Ordered

/-! ## What is registered -/

namespace Registry

/-- Every macro of the registry is one of those given, filed under its phase. -/
def ConsistsOf (registry : Registry) (macros : List Macro.Registered) : Prop :=
  ∀ phase, ∀ entry ∈ registry.macros phase,
    entry.2 ∈ macros ∧ entry.2.definition.phase = phase

/-- A macro of those given can be added. -/
theorem ConsistsOf.add {registry : Registry} {macros : List Macro.Registered}
    (h : registry.ConsistsOf macros) {m : Macro.Registered} (hm : m ∈ macros) :
    (registry.add m.definition m.factory).ConsistsOf macros := by
  intro phase entry he
  simp only [Registry.add] at he
  split at he
  · rename_i hp
    rcases Fields.mem_insert he with rfl | he
    · exact ⟨hm, hp.symm⟩
    · exact h phase entry he
  · exact h phase entry he

/-- Macros of those given can be added one after the other. -/
theorem ConsistsOf.defineAll {macros all : List Macro.Registered} {registry : Registry}
    (h : registry.ConsistsOf all) (hm : ∀ m ∈ macros, m ∈ all) :
    (defineAll macros registry).value.ConsistsOf all := by
  induction macros generalizing registry with
  | nil => exact h
  | cons m rest ih =>
    rw [Registry.defineAll, Logged.value_bind, value_define]
    exact ih (h.add (hm m List.mem_cons_self)) fun m' hm' => hm m' (List.mem_cons_of_mem m hm')

/-- The registry of the built-in macros, without the journal. -/
@[irreducible] def builtin (space : String) (attributes : Attributes) : Registry :=
  (withBuiltins space attributes).value

theorem value_withBuiltins (space : String) (attributes : Attributes) :
    (withBuiltins space attributes).value = builtin space attributes := by
  unfold builtin
  with_reducible rfl

/-- The built-in registry holds built-in macros alone. -/
theorem consistsOf_builtin (space : String) (attributes : Attributes) :
    (builtin space attributes).ConsistsOf (Macro.builtins attributes) := by
  unfold builtin withBuiltins
  exact ConsistsOf.defineAll (fun _ entry he => by cases he) fun _ hm => hm

/-- What a key calls is registered for the phase.  A lookup goes by the verb and the type that are
read from the key; what is registered under them is one of the macros. -/
theorem ConsistsOf.mem_of_lookup {registry : Registry} {macros : List Macro.Registered}
    (h : registry.ConsistsOf macros) {phase : Phase} {key : String}
    {invocation : Macro.Invocation} {factory : Macro.Factory}
    (hl : registry.lookup phase key = some (invocation, factory)) :
    ∃ m ∈ macros, m.definition = invocation.definition ∧ m.factory = factory ∧
      m.definition.phase = phase := by
  simp only [lookup, Option.bind_eq_bind] at hl
  obtain ⟨call, -, hl⟩ := Option.bind_eq_some_iff.mp hl
  obtain ⟨m, hf, hl⟩ := Option.bind_eq_some_iff.mp hl
  obtain ⟨rfl, rfl⟩ := Prod.mk.inj (Option.some.inj hl)
  obtain ⟨hm, hp⟩ := h phase _ (Fields.mem_of_find? hf)
  exact ⟨m, hm, rfl, rfl, hp⟩

/-- The key calls no macro in any phase. -/
def Idle (registry : Registry) (key : String) : Prop := ∀ phase, registry.lookup phase key = none

end Registry

/-! ## The modifiers of the built-in macros -/

namespace Macro

/-- Expanding a value apart gives a value whose names are good. -/
def Expands (ok : String → Prop) (resolve : Value → Logged (Except MacroError Value)) : Prop :=
  ∀ v x, v.Ordered → (resolve v).value = .ok x → x.Ordered ∧ x.EveryKey ok

/-- A built-in macro is a lookup, writes a text, or removes its wrapper. -/
theorem factory_of_mem_builtins {attributes : Attributes} {m : Registered}
    (hm : m ∈ builtins attributes) :
    m.factory = lookup attributes ∨ (∃ accepted form, m.factory = encode accepted form) ∨
      m.factory = delete := by
  simp only [builtins, List.mem_cons, List.not_mem_nil, or_false] at hm
  rcases hm with rfl | rfl | rfl | rfl | rfl | rfl | rfl | rfl | rfl
  · exact Or.inr (Or.inr rfl)
  · exact Or.inl rfl
  · exact Or.inl rfl
  · exact Or.inl rfl
  · exact Or.inl rfl
  · exact Or.inl rfl
  · exact Or.inr (Or.inl ⟨_, _, rfl⟩)
  · exact Or.inr (Or.inl ⟨_, _, rfl⟩)
  · exact Or.inr (Or.inl ⟨_, _, rfl⟩)

section

variable {attributes : Attributes} {context : Context} {branch : Branch} {invocation : Invocation}
  {m m' : Modifier} {ok : String → Prop}

/-- What a lookup makes of the value of its attribute. -/
def modifierFor (context : Context) (branch : Branch) (invocation : Invocation) (value : Value)
    (resolved : Except MacroError Value) : Except MacroError Modifier :=
  if invocation.definition.returnType.isContainer then
    resolved.bind fun x =>
      ((placeComposite context.document branch x).mapError .document).map
        (Modifier.bound branch invocation)
  else .ok (.bound branch invocation [.set (wrapper branch) value])

/-- A lookup reads its attribute and then makes a modifier of the value.  The journal is left out,
so what remains are the attribute, the value that is expanded apart, and the place for it. -/
theorem value_lookup (attributes : Attributes) (context : Context) (branch : Branch)
    (invocation : Invocation) :
    (lookup attributes context branch invocation).value =
      (lookupAttribute attributes context branch invocation).bind fun found =>
        modifierFor context branch invocation found.2 (context.resolve found.2).value := by
  simp only [lookup]
  cases lookupAttribute attributes context branch invocation with
  | error e => rfl
  | ok found =>
    obtain ⟨name, value⟩ := found
    simp only [Except.bind, modifierFor]
    cases invocation.definition.returnType.isContainer with
    | false => rfl
    | true =>
      simp only [Logged.value_bind, Bool.not_true, Bool.false_eq_true, if_false, if_true]
      cases (context.resolve value).value with
      | error e => rfl
      | ok x =>
        simp only
        cases placeComposite context.document branch x <;> rfl

/-- The value of a scalar attribute is substituted, and what a composite one expands to is put in
place.  These are the two ways in which a lookup succeeds, and the first of them does not need the
expansion. -/
theorem modifierFor_eq_ok_iff {value : Value} {resolved : Except MacroError Value} :
    modifierFor context branch invocation value resolved = .ok m ↔
      invocation.definition.returnType.isContainer = false ∧
          m = .bound branch invocation [.set (wrapper branch) value] ∨
        invocation.definition.returnType.isContainer = true ∧ ∃ x instructions,
          resolved = .ok x ∧ placeComposite context.document branch x = .ok instructions ∧
            m = .bound branch invocation instructions := by
  rw [modifierFor]
  cases invocation.definition.returnType.isContainer with
  | false => simp [eq_comm]
  | true =>
    cases resolved with
    | error e => simp [Except.bind]
    | ok x =>
      show ((placeComposite context.document branch x).mapError MacroError.document).map
        (Modifier.bound branch invocation) = .ok m ↔ _
      cases hp : placeComposite context.document branch x with
      | error e =>
        show Except.error _ = Except.ok m ↔ _
        simp [hp]
      | ok instructions =>
        show Except.ok (Modifier.bound branch invocation instructions) = Except.ok m ↔ _
        simp [hp, eq_comm]

/-- A lookup that finds its attribute makes a modifier of the value. -/
theorem value_lookup_eq_ok_iff :
    (lookup attributes context branch invocation).value = .ok m ↔
      ∃ found, lookupAttribute attributes context branch invocation = .ok found ∧
        modifierFor context branch invocation found.2 (context.resolve found.2).value = .ok m := by
  rw [value_lookup]
  cases lookupAttribute attributes context branch invocation with
  | error e => simp [Except.bind]
  | ok found => simp [Except.bind]

/-- A macro that takes its value makes its modifier of it. -/
theorem bind_expectInput_eq_ok_iff {accepted : List Kind} :
    ((expectInput branch invocation accepted).bind fun _ => .ok m') = .ok m ↔
      branch.kind ∈ accepted ∧ m = m' := by
  rw [expectInput]
  by_cases hk : branch.kind ∈ accepted
  · rw [if_pos (List.contains_iff_mem.mpr hk)]
    simp [Except.bind, hk, eq_comm]
  · rw [if_neg fun hc => hk (List.contains_iff_mem.mp hc)]
    simp [Except.bind, hk]

/-- An encoder takes values of the kinds that it accepts. -/
theorem value_encode_eq_ok_iff {accepted : List Kind} {form : Transform} :
    (encode accepted form context branch invocation).value = .ok m ↔
      branch.kind ∈ accepted ∧
        m = .bound branch invocation [.transform branch.path (wrapper branch) form] :=
  bind_expectInput_eq_ok_iff

/-- A deletion takes a text or an object. -/
theorem value_delete_eq_ok_iff :
    (delete context branch invocation).value = .ok m ↔
      branch.kind ∈ [Kind.string, Kind.object] ∧
        m = .bound branch invocation [.delete (wrapper branch)] :=
  bind_expectInput_eq_ok_iff

/-- What a lookup finds is the value of an attribute. -/
theorem lookup_of_lookupAttribute {name : String} {value : Value}
    (h : lookupAttribute attributes context branch invocation = .ok (name, value)) :
    attributes.lookup name invocation.definition.returnType = .ok value := by
  simp only [lookupAttribute, bind, Except.bind] at h
  split at h
  · contradiction
  split at h
  · contradiction
  split at h
  · contradiction
  rename_i found hl
  obtain ⟨rfl, rfl⟩ := Prod.mk.inj (Except.ok.inj h)
  exact hl

/-- The value that is looked up is in order, and of the kind that is asked for. -/
theorem ordered_of_lookup (ha : attributes.Ordered) {name : String} {kind : Kind} {value : Value}
    (h : attributes.lookup name kind = .ok value) : value.Ordered ∧ value.kind = kind := by
  obtain ⟨hf, hk⟩ := Attributes.lookup_eq_ok_iff.mp h
  exact ⟨ha _ (Fields.mem_of_find? hf), hk⟩

/-- The instructions that a built-in macro asks for at a key of a wrapper. -/
inductive Makes (attributes : Attributes) (resolve : Value → Logged (Except MacroError Value))
    (definition : Definition) (wrapper : Path) (name : String) : List Instruction → Prop
  /-- The value of a scalar attribute takes the place of the wrapper. -/
  | substitute {found : String} {x : Value} (hscalar : definition.returnType.isContainer = false)
    (hx : attributes.lookup found definition.returnType = .ok x) :
    Makes attributes resolve definition wrapper name [.set wrapper x]
  /-- What the value of a composite attribute expands to takes the place of the wrapper. -/
  | replace {found : String} {v x : Value} (hcomposite : definition.returnType.isContainer = true)
    (hv : attributes.lookup found definition.returnType = .ok v) (hx : (resolve v).value = .ok x) :
    Makes attributes resolve definition wrapper name [.set wrapper x]
  /-- What it expands to is merged into the wrapper, without the key. -/
  | merge {found : String} {v x : Value} (hcomposite : definition.returnType.isContainer = true)
    (hv : attributes.lookup found definition.returnType = .ok v) (hx : (resolve v).value = .ok x) :
    Makes attributes resolve definition wrapper name
      [.delete (wrapper ++ [.field name]), .overlay wrapper x]
  /-- Arrays are joined in the third phase; the other texts are made in the last. -/
  | encode (form : Transform) (htext : definition.returnType = .string)
    (hphase : definition.phase = if form = .join then .composites else .encoding) :
    Makes attributes resolve definition wrapper name
      [.transform (wrapper ++ [.field name]) wrapper form]
  /-- The wrapper goes. -/
  | remove (hnull : definition.returnType = .null) :
    Makes attributes resolve definition wrapper name [.delete wrapper]

/-- The wrapper of a key is at the path without the key. -/
theorem wrapper_of_path {w : Path} {key : Key} (hp : branch.path = w ++ [key]) :
    wrapper branch = w := by
  rw [wrapper, hp, List.dropLast_concat]

/-- A composite takes the place of the wrapper or is merged into it. -/
theorem eq_of_placeComposite {doc : Document} {x : Value} {instructions : List Instruction}
    (h : placeComposite doc branch x = .ok instructions) :
    instructions = [.set (wrapper branch) x] ∨
      instructions = [.delete branch.path, .overlay (wrapper branch) x] := by
  simp only [placeComposite, bind, Except.bind] at h
  split at h
  · contradiction
  split at h
  · contradiction
  split at h
  · exact Or.inl (Except.ok.inj h).symm
  · exact Or.inr (Except.ok.inj h).symm

variable {w : Path} {name : String}

/-- A lookup puts a scalar or a composite in the place of its wrapper, or merges it in. -/
theorem makes_of_lookup (hp : branch.path = w ++ [.field name])
    (h : (lookup attributes context branch invocation).value = .ok m) :
    m.path = branch.path ∧
      Makes attributes context.resolve invocation.definition w name m.instructions := by
  have hw := wrapper_of_path hp
  obtain ⟨⟨found, value⟩, hl, hm⟩ := value_lookup_eq_ok_iff.mp h
  have hvalue := lookup_of_lookupAttribute hl
  -- By what is found: a scalar, or a composite, which is placed by the width of the wrapper.
  rcases modifierFor_eq_ok_iff.mp hm with ⟨hscalar, rfl⟩ | ⟨hcomposite, x, is, hx, hplace, rfl⟩
  · refine ⟨rfl, ?_⟩
    rw [Modifier.bound, hw]
    exact .substitute hscalar hvalue
  · refine ⟨rfl, ?_⟩
    rw [Modifier.bound]
    rcases eq_of_placeComposite hplace with rfl | rfl
    · rw [hw]
      exact .replace hcomposite hvalue hx
    · rw [hw, hp]
      exact .merge hcomposite hvalue hx

/-- An encoder puts a text in the place of its wrapper. -/
theorem makes_of_encode (hp : branch.path = w ++ [.field name]) {accepted : List Kind}
    {form : Transform} (htext : invocation.definition.returnType = .string)
    (hphase : invocation.definition.phase = if form = .join then .composites else .encoding)
    (h : (encode accepted form context branch invocation).value = .ok m) :
    m.path = branch.path ∧
      Makes attributes context.resolve invocation.definition w name m.instructions := by
  obtain ⟨-, rfl⟩ := value_encode_eq_ok_iff.mp h
  refine ⟨rfl, ?_⟩
  rw [Modifier.bound, wrapper_of_path hp, hp]
  exact .encode form htext hphase

/-- A deletion asks for its wrapper to go. -/
theorem makes_of_delete (hp : branch.path = w ++ [.field name])
    (hnull : invocation.definition.returnType = .null)
    (h : (delete context branch invocation).value = .ok m) :
    m.path = branch.path ∧
      Makes attributes context.resolve invocation.definition w name m.instructions := by
  obtain ⟨-, rfl⟩ := value_delete_eq_ok_iff.mp h
  refine ⟨rfl, ?_⟩
  rw [Modifier.bound, wrapper_of_path hp]
  exact .remove hnull

/-- What the modifier of a built-in macro does.  One case for each macro of the table: the deletion,
the five lookups and the three encoders. -/
theorem makes_of_builtin (hp : branch.path = w ++ [.field name]) {r : Registered}
    (hm : r ∈ builtins attributes) (hd : r.definition = invocation.definition)
    (h : (r.factory context branch invocation).value = .ok m) :
    m.path = branch.path ∧
      Makes attributes context.resolve invocation.definition w name m.instructions := by
  simp only [builtins, List.mem_cons, List.not_mem_nil, or_false] at hm
  rcases hm with rfl | rfl | rfl | rfl | rfl | rfl | rfl | rfl | rfl
  · exact makes_of_delete hp (by rw [← hd]) h
  · exact makes_of_lookup hp h
  · exact makes_of_lookup hp h
  · exact makes_of_lookup hp h
  · exact makes_of_lookup hp h
  · exact makes_of_lookup hp h
  · exact makes_of_encode hp (by rw [← hd]) (by rw [← hd]; rfl) h
  · exact makes_of_encode hp (by rw [← hd]) (by rw [← hd]; rfl) h
  · exact makes_of_encode hp (by rw [← hd]) (by rw [← hd]; rfl) h

/-- A value that is no container has no names, and nothing in it is out of order. -/
theorem plain_of_not_container {v : Value} (h : v.kind.isContainer = false) :
    v.Ordered ∧ v.EveryKey ok := by
  cases v with
  | scalar s => exact ⟨trivial, trivial⟩
  | array items => contradiction
  | object fields => contradiction

/-- A built-in macro rewrites the wrapper of its key, with names that expansion apart makes good.
Only for a composite anything is asked of the expansion: scalars and texts have no names. -/
theorem Makes.rewrite {resolve : Value → Logged (Except MacroError Value)} {definition : Definition}
    {instructions : List Instruction} (ha : attributes.Ordered) (hr : Expands ok resolve)
    (h : Makes attributes resolve definition w name instructions) :
    Instruction.Rewrite ok w name instructions := by
  cases h with
  | @substitute found x hscalar hx =>
    obtain ⟨-, hk⟩ := ordered_of_lookup ha hx
    -- The value of a scalar attribute holds no names at all.
    have hplain : x.Ordered ∧ x.EveryKey ok := plain_of_not_container (hk ▸ hscalar)
    exact .replace hplain.1 hplain.2
  | replace hcomposite hv hx =>
    obtain ⟨ho, hgood⟩ := hr _ _ (ordered_of_lookup ha hv).1 hx
    exact .replace ho hgood
  | merge hcomposite hv hx =>
    obtain ⟨ho, hgood⟩ := hr _ _ (ordered_of_lookup ha hv).1 hx
    exact .merge ho hgood
  | encode form => exact .encode form
  | remove => exact .remove

/-- A lone transform makes a text of the value of the key; which one goes with the phase. -/
theorem Makes.eq_transform {resolve : Value → Logged (Except MacroError Value)}
    {definition : Definition} {instructions : List Instruction}
    (h : Makes attributes resolve definition w name instructions)
    (hn : instructions.map Instruction.name = ["transform"]) :
    ∃ form, instructions = [.transform (w ++ [.field name]) w form] ∧
      definition.phase = if form = .join then .composites else .encoding := by
  cases h with
  | substitute => simp [Instruction.name] at hn
  | replace => simp [Instruction.name] at hn
  | merge => simp [Instruction.name] at hn
  | remove => simp [Instruction.name] at hn
  | encode form htext hphase => exact ⟨form, rfl, hphase⟩

end

end Macro

end Expansion
