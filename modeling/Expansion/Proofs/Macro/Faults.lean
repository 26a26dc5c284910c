import Expansion.Proofs.Macro.Composition
import Expansion.Proofs.Macro.Failure

/-!
  When a modifier of a built-in macro cannot run.

  When no object holds two keys of the phase, every wrapper has one modifier.  Those that run before
  it change other wrappers, none of them above its own: so when a modifier has its turn its wrapper
  is still an object, the key is still in it, and a value that was no object is still of its kind
  (`turn_of_split`, from what one edit leaves, `Value.kind_get?_of_edit?`).  So it finds all that it
  needs (`Plan`), with two exceptions: the root cannot be deleted, and a fragment that is an array
  cannot be merged into an object (`Fault`).  A phase runs to the end exactly when there is none of
  these, and otherwise it fails with the error that goes with it (`applyAll_faults`).
-/

namespace Expansion

/-! ## What edits leave elsewhere -/

namespace Value

variable {key : Key} {p q : Path} {v v' u : Value} {f : Value → Option Value}

/-- What is of the kind of objects is an object. -/
theorem exists_eq_object (h : v.kind = .object) : ∃ fields, v = object fields := by
  cases v with
  | scalar s => cases s <;> cases h
  | array items => cases h
  | object fields => exact ⟨fields, rfl⟩

/-- Placing a part does not change the kind. -/
theorem kind_place? (h : v.place? key u = some v') : v'.kind = v.kind := by
  cases v with
  | scalar s => cases h
  | array items =>
    obtain ⟨i, -, rfl⟩ := Option.map_eq_some_iff.mp h
    rfl
  | object fields =>
    obtain ⟨name, -, rfl⟩ := Option.map_eq_some_iff.mp h
    rfl

/-- An edit changes the kind of no value but the one that is edited and those in it.  By induction
on the path of the edit. -/
theorem kind_get?_of_edit? (h : v.edit? p f = some v') (hq : ¬ p <+: q) :
    (v'.get? q).map kind = (v.get? q).map kind := by
  induction p generalizing v v' q with
  | nil => exact absurd List.nil_prefix hq
  | cons key rest ih =>
    obtain ⟨u, hu⟩ : ∃ u, v.part? key = some u := by
      obtain ⟨c, hc, -⟩ := Option.bind_eq_some_iff.mp h
      obtain ⟨u, hu, -⟩ := Option.bind_eq_some_iff.mp hc
      exact ⟨u, hu⟩
    rw [edit?_cons hu] at h
    obtain ⟨u', hu', hplace⟩ := Option.bind_eq_some_iff.mp h
    cases q with
    | nil => exact congrArg some (kind_place? hplace)
    | cons k q =>
      show ((v'.part? k).bind (get? q)).map kind = ((v.part? k).bind (get? q)).map kind
      -- Under the key of the edit the paths are shorter by one; under another nothing has changed.
      by_cases hk : k = key
      · subst hk
        rw [part?_of_place? hplace, hu]
        exact ih hu' fun hpre => hq (List.cons_prefix_cons.mpr ⟨rfl, hpre⟩)
      · rw [part?_place?_of_ne hu hplace hk]

/-- The value that is edited is found in its place. -/
theorem get?_of_edit? (h : v.edit? p f = some v') :
    ∃ c c', v.get? p = some c ∧ f c = some c' ∧ v'.get? p = some c' := by
  obtain ⟨c, hc, h⟩ := Option.bind_eq_some_iff.mp h
  obtain ⟨c', hc', h⟩ := Option.bind_eq_some_iff.mp h
  have hget := get?_of_write? h []
  rw [List.append_nil] at hget
  exact ⟨c, c', hc, hc', hget⟩

/-- Parts that are taken out one after the other leave something at a path that they spare. -/
theorem isSome_get?_of_removeEach? {ps : List Path} (hv : v.Ordered)
    (h : removeEach? ps v = some v') (hs : ∀ p ∈ ps, Path.Spares p q) (hq : (v.get? q).isSome) :
    (v'.get? q).isSome := by
  induction ps generalizing v with
  | nil =>
    obtain rfl := Option.some.inj h
    exact hq
  | cons p rest ih =>
    obtain ⟨hp, hrest⟩ := List.forall_mem_cons.mp hs
    obtain ⟨u, hu, h⟩ := Option.bind_eq_some_iff.mp h
    exact ih (hv.remove? hu) h hrest (isSome_get?_of_spares hv hu hp hq)

/-- An object from which a field is removed is still an object. -/
theorem exists_remove?_field {name : String} {fields : Fields Value}
    (hc : v.get? p = some (object fields)) (hf : (v.get? (p ++ [.field name])).isSome) :
    ∃ v' more, v.remove? (p ++ [.field name]) = some v' ∧ v'.get? p = some (object more) := by
  obtain ⟨v', hv'⟩ := Option.isSome_iff_exists.mp (isSome_remove?_iff.mpr
    ⟨List.append_ne_nil_of_right_ne_nil p (List.cons_ne_nil _ _), hf⟩)
  have hedit := hv'
  rw [remove?_append hc (List.cons_ne_nil _ _)] at hedit
  obtain ⟨c, c', hget, hdrop, hleft⟩ := get?_of_edit? hedit
  obtain rfl := Option.some.inj (hc.symm.trans hget)
  rcases drop?_cases hdrop with ⟨_, _, _, hc, -, -⟩ | ⟨_, _, _, _, -, -, rfl⟩
  · cases hc
  · exact ⟨v', _, hv', hleft⟩

/-- A merge into an object fails exactly for an array that has something to add.  Scalars and empty
containers have nothing to add, and objects go into objects. -/
theorem overlay?_object_eq_none_iff {fields : Fields Value} {source : Value}
    (hv : v.get? p = some (object fields)) :
    overlay? p source v = none ↔ ∃ x rest, source = array (x :: rest) := by
  rw [overlay?, hv, Option.bind_some]
  cases source with
  | scalar s => simp [hasParts]
  | array items =>
    cases items with
    | nil => simp [hasParts]
    | cons x rest => simp [hasParts, kind]
  | object more =>
    have hwrites := isSome_write?_of_get? hv ((object fields).merge (object more))
    simp only [kind, if_true, reduceCtorEq, exists_false, iff_false]
    split
    · exact Option.isSome_iff_ne_none.mp hwrites
    · simp

end Value

namespace Document

/-- An array with elements cannot be merged into an object.  It is the first element that fails, so
nothing has been changed. -/
theorem overlay_array_of_object {doc : Document} (h : doc.InShape) {path : Path}
    {fields : Fields Value} (hv : doc.toValue.get? path = some (.object fields)) (x : Value)
    (rest : List Value) :
    (overlay path (.array (x :: rest)) doc).value
      = (.error (.typeMismatch path.text .array .object), doc) := by
  obtain ⟨n, p, hvalue, hget, hslot⟩ := h.exists_slot_of_get? hv
  obtain ⟨id, more, rfl⟩ : ∃ id more, n = .object id more := by
    cases n with
    | scalar id s => cases hvalue
    | array id items => cases hvalue
    | object id more => exact ⟨id, more, rfl⟩
  have hstep : doc.get (path ++ [.index 0]) = .error (.typeMismatch path.text .array .object) := by
    rw [get_concat, hget]
    simp only [Except.bind, step, hslot, Node.content, bind]
    rfl
  rw [overlay, overlayItems, Edit.value_bind, value_overlayEntry, existing, hstep]
  rfl

end Document

/-! ## Runs of modifiers that edit their wrappers -/

namespace Modifier

variable {ms : List Modifier} {v v' : Value}

/-- What the edit of each wrapper keeps is kept by the run, deepest wrappers first.  The wrappers of
the modifiers to come are still there, since they are no deeper than the one that is edited. -/
theorem holds_of_effectEach? {holds : Value → Prop} (hlocal : ∀ m ∈ ms, ∃ is, m.Local is)
    (ho : ∀ m ∈ ms, m.Ordered)
    (hdeep : ms.Pairwise fun a b => b.wrapper.length ≤ a.wrapper.length)
    (hstep : ∀ m ∈ ms, ∀ u u', u.Ordered → u.edit? m.wrapper m.act? = some u' →
      holds u → holds u')
    (hv : v.Ordered) (hw : ∀ m ∈ ms, (v.get? m.wrapper).isSome)
    (he : effectEach? ms v = some v') (h : holds v) : holds v' := by
  induction ms generalizing v with
  | nil =>
    obtain rfl := Option.some.inj he
    exact h
  | cons m rest ih =>
    obtain ⟨hl, hlocal⟩ := List.forall_mem_cons.mp hlocal
    obtain ⟨hm, ho⟩ := List.forall_mem_cons.mp ho
    obtain ⟨hlen, hdeep⟩ := List.pairwise_cons.mp hdeep
    obtain ⟨hkeep, hstep⟩ := List.forall_mem_cons.mp hstep
    obtain ⟨hthere, hw⟩ := List.forall_mem_cons.mp hw
    obtain ⟨is, hl⟩ := hl
    obtain ⟨u, hu, he⟩ := Option.bind_eq_some_iff.mp he
    rw [hl.effect?_eq_edit? hm hv hthere] at hu
    have hordered : u.Ordered := hv.edit? (fun c c' hc => hl.ordered_of_act? hm hc) hu
    exact ih hlocal ho hdeep hstep hordered
      (fun b hb => Value.isSome_get?_of_edit? hv hu (hlen b hb) (hw b hb)) he (hkeep v u hv hu h)

end Modifier

/-! ## The turn of a modifier -/

namespace Evaluator

variable {space : String} {attributes : Attributes} {settings : Settings} {kindCheck : Bool}
  {resolve : Resolve} {phase : Phase} {doc : Document} {pending : Pending} {m : Modifier}
  {before after : List Modifier} {v u : Value}

/-- When no object holds two keys of the phase, no two modifiers have the same wrapper.  The
modifiers of one wrapper are as many as its keys, and of these there is one at most. -/
theorem nodup_wrappers (h : doc.InShape)
    (hw : ((builtin space attributes settings kindCheck).walkWith resolve phase doc).value
      = .ok pending)
    (hsingle : ∀ path fields, doc.toValue.get? path = some (.object fields) →
      (fields.filter fun entry =>
        ((Registry.builtin space attributes).lookup phase entry.1).isSome).length ≤ 1) :
    (pending.inOrder.map Modifier.wrapper).Nodup := by
  refine List.nodup_iff_count_le_one.mpr fun p => ?_
  have hcount : (pending.inOrder.map Modifier.wrapper).count p
      = (pending.inOrder.filter (·.wrapper = p)).length := by
    rw [List.count, List.countP_map, List.countP_eq_length_filter]
    exact congrArg List.length (List.filter_congr fun m _ => beq_eq_decide _ _)
  rw [hcount]
  -- The modifiers of a wrapper are as many as its keys, that is one at most.
  by_cases hp : ∃ m ∈ pending.inOrder, m.wrapper = p
  · obtain ⟨m, hm, rfl⟩ := hp
    obtain ⟨fields, -, -, hfields, -⟩ :=
      exists_field_of_mem_all h hw (Pending.mem_inOrder.mp hm)
    have hlen := congrArg List.length (map_path_filter h hw hfields)
    rw [List.length_map, List.length_map, Registry.length_turns] at hlen
    rw [hlen]
    exact hsingle _ fields hfields
  · have hnil : pending.inOrder.filter (·.wrapper = p) = [] :=
      List.filter_eq_nil_iff.mpr fun m hm hwrapper => hp ⟨m, hm, of_decide_eq_true hwrapper⟩
    rw [hnil]
    exact Nat.zero_le 1

/-- No wrapper of an earlier modifier is above that of a later one.  Deeper wrappers come first, so
a wrapper above would have to be the same, and no two are. -/
theorem not_prefix_of_split (h : doc.InShape)
    (hw : ((builtin space attributes settings kindCheck).walkWith resolve phase doc).value
      = .ok pending)
    (hdistinct : (pending.inOrder.map Modifier.wrapper).Nodup)
    (hs : pending.inOrder = before ++ m :: after) {a : Modifier} (ha : a ∈ before) :
    ¬ a.wrapper <+: m.wrapper := by
  intro hpre
  have hdeep := pairwise_depth h hw
  rw [hs] at hdeep hdistinct
  rw [List.map_append, List.map_cons] at hdistinct
  have hsame := hpre.eq_of_length_le ((List.pairwise_append.mp hdeep).2.2 a ha m List.mem_cons_self)
  exact (List.nodup_append.mp hdistinct).2.2 _ (List.mem_map_of_mem ha) _ List.mem_cons_self hsame

/-- What is kept by the edit of every earlier wrapper holds when a modifier has its turn.  It is
asked of the edits of wrappers, since that is what a modifier of a phase after the first does. -/
theorem holds_of_split (h : doc.InShape) (hp : phase ≠ .directives)
    (hev : (builtin space attributes settings kindCheck).Rewriting resolve)
    (hw : ((builtin space attributes settings kindCheck).walkWith resolve phase doc).value
      = .ok pending)
    (hs : pending.inOrder = before ++ m :: after)
    (he : Modifier.effectEach? before doc.toValue = some v) {holds : Value → Prop}
    (hstep : ∀ a ∈ before, ∀ u u', u.Ordered → u.edit? a.wrapper a.act? = some u' →
      holds u → holds u')
    (hholds : holds doc.toValue) : holds v := by
  have hall : ∀ a ∈ before, a ∈ pending.all := fun a ha =>
    Pending.mem_inOrder.mp (hs ▸ List.mem_append_left _ ha)
  have hdeep := pairwise_depth h hw
  rw [hs] at hdeep
  refine Modifier.holds_of_effectEach? (fun a ha => ?_) (fun a ha => ?_)
    (List.pairwise_append.mp hdeep).1 hstep h.ordered (fun a ha => ?_) he hholds
  · obtain ⟨_, _, is, -, hserves⟩ := exists_serves h hp hw (hall a ha)
    exact ⟨is, hserves.onlyWrapper⟩
  · exact (collected_of_walk h hev hw).ordered a (hall a ha)
  · obtain ⟨fields, -, -, hfields, -⟩ := exists_field_of_mem_all h hw (hall a ha)
    exact Option.isSome_iff_exists.mpr ⟨_, hfields⟩

/-- When a modifier has its turn its wrapper is still an object, and its key still has a value, of
the same kind if it was no object.  The wrapper was not edited, nor was anything above it.  What may
have been edited is the value of the key, if it is a wrapper itself, and then it was an object. -/
theorem turn_of_split (h : doc.InShape) (hp : phase ≠ .directives)
    (hev : (builtin space attributes settings kindCheck).Rewriting resolve)
    (hw : ((builtin space attributes settings kindCheck).walkWith resolve phase doc).value
      = .ok pending)
    (hdistinct : (pending.inOrder.map Modifier.wrapper).Nodup)
    (hs : pending.inOrder = before ++ m :: after)
    (he : Modifier.effectEach? before doc.toValue = some v)
    (hu : doc.toValue.get? m.path = some u) :
    (∃ fields, v.get? m.wrapper = some (.object fields)) ∧
      ∃ u', v.get? m.path = some u' ∧ (u.kind ≠ .object → u'.kind = u.kind) := by
  have hall : ∀ a ∈ pending.inOrder, a ∈ pending.all := fun a ha => Pending.mem_inOrder.mp ha
  rw [hs] at hall
  have hkind : ∀ q, (∀ a ∈ before, ¬ a.wrapper <+: q) →
      (v.get? q).map Value.kind = (doc.toValue.get? q).map Value.kind := fun q hq =>
    holds_of_split h hp hev hw hs he
      (fun a ha u u' _ hu hkind => (Value.kind_get?_of_edit? hu (hq a ha)).trans hkind) rfl
  obtain ⟨fields, name, -, hfields, hpath, -⟩ :=
    exists_field_of_mem_all h hw (hall m (List.mem_append_right _ List.mem_cons_self))
  -- A wrapper that is edited before and leads to the key is the value of the key.
  have hown : ∀ a ∈ before, a.wrapper <+: m.path → a.wrapper = m.path := by
    intro a ha hpre
    rw [hpath, List.prefix_concat_iff] at hpre
    rcases hpre with heq | hpre
    · rw [heq, hpath]
    · exact absurd hpre (not_prefix_of_split h hw hdistinct hs ha)
  refine ⟨?_, ?_⟩
  · have hwrapper := hkind m.wrapper fun a ha => not_prefix_of_split h hw hdistinct hs ha
    rw [hfields] at hwrapper
    obtain ⟨c, hc, hck⟩ := Option.map_eq_some_iff.mp hwrapper
    obtain ⟨more, rfl⟩ := Value.exists_eq_object hck
    exact ⟨more, hc⟩
  · have hstep : ∀ a ∈ before, ∀ x x' : Value, x.Ordered →
        x.edit? a.wrapper a.act? = some x' →
        (x.get? m.path).isSome → (x'.get? m.path).isSome := by
      intro a ha x x' hx hedit hthere
      by_cases hpre : a.wrapper <+: m.path
      · exact Value.isSome_get?_of_edit? hx hedit (Nat.le_of_eq (hown a ha hpre ▸ rfl)) hthere
      · have hsame := congrArg Option.isSome (Value.kind_get?_of_edit? hedit hpre)
        rw [Option.isSome_map, Option.isSome_map] at hsame
        exact hsame.trans hthere
    have hsome : (v.get? m.path).isSome :=
      holds_of_split h hp hev hw hs he hstep (Option.isSome_iff_exists.mpr ⟨u, hu⟩)
    obtain ⟨u', hu'⟩ := Option.isSome_iff_exists.mp hsome
    refine ⟨u', hu', fun hne => ?_⟩
    have hplain := hkind m.path fun a ha hpre => by
      obtain ⟨more, -, -, hmore, -⟩ := exists_field_of_mem_all h hw
        (hall a (List.mem_append_left _ ha))
      rw [hown a ha hpre, hu] at hmore
      obtain rfl := Option.some.inj hmore
      exact hne rfl
    rw [hu', hu] at hplain
    exact Option.some.inj hplain

end Evaluator

/-! ## What a modifier needs -/

section

variable (m : Modifier) (registry : Registry) (attributes : Attributes)
  (resolve : Evaluator.Resolve) (phase : Phase)

/-- What a modifier of a phase after the first does at a key of an object. -/
inductive Modifier.Plan (fields : Fields Value) (entry : String × Value) : Prop
  /-- A value takes the place of the wrapper. -/
  | place (x : Value) (halone : phase = .composites → fields.length = 1)
    (hdoes : m.instructions = [.set m.wrapper x])
  /-- A fragment is merged into the wrapper. -/
  | merge (z : Value) (hphase : phase = .composites) (hmany : fields.length ≠ 1)
    (hfragment : registry.fragment? attributes resolve entry = some z)
    (hdoes : m.instructions = [.delete m.path, .overlay m.wrapper z])
  /-- The text of the value of the key takes the place of the wrapper. -/
  | encode (form : Transform)
    (hnone : phase = .composites → registry.fragment? attributes resolve entry = none)
    (hjoin : form = .join → entry.2.kind = .array)
    (hdoes : m.instructions = [.transform m.path m.wrapper form])

/-- Why a modifier cannot run, whatever runs before it. -/
inductive Modifier.Fault (v : Value) : DocumentError → Prop
  /-- The root holds a deletion. -/
  | root (hphase : phase = .directives) (hroot : m.wrapper = [])
    (hholds : v.holds registry.deletes = true) : Fault v .rootDelete
  /-- A lookup that is not alone in its wrapper has an array with elements as its fragment. -/
  | clash {fields : Fields Value} {entry : String × Value} {x : Value} {rest : List Value}
    (hphase : phase = .composites) (hfields : v.get? m.wrapper = some (.object fields))
    (hmany : fields.length ≠ 1) (hentry : entry ∈ fields)
    (hpath : m.path = m.wrapper ++ [.field entry.1])
    (hfragment : registry.fragment? attributes resolve entry = some (.array (x :: rest))) :
    Fault v (.typeMismatch m.wrapper.text .array .object)

end

/-- Every value has a text, an array also a joined one. -/
theorem Transform.exists_render {form : Transform} {v : Value}
    (h : form = .join → v.kind = .array) : ∃ text, form.render v = .ok text := by
  cases form with
  | json => exact ⟨_, rfl⟩
  | yaml => exact ⟨_, rfl⟩
  | join =>
    cases v with
    | array items => exact ⟨_, rfl⟩
    | scalar s => cases s <;> cases h rfl
    | object fields => cases h rfl

namespace Modifier.Plan

variable {m : Modifier} {registry : Registry} {attributes : Attributes}
  {resolve : Evaluator.Resolve} {phase : Phase} {fields more : Fields Value}
  {entry : String × Value} {v u : Value}

/-- With its wrapper and the value of its key in place, a modifier fails only when it is to merge an
array that has something to add.  A wrapper that is an object takes what is written, has the key
that is taken out, and is merged with objects; and what is rendered has a text. -/
theorem effect?_eq_none_iff (h : m.Plan registry attributes resolve phase fields entry)
    (hpath : m.path = m.wrapper ++ [.field entry.1])
    (hw : v.get? m.wrapper = some (.object more)) (hu : v.get? m.path = some u)
    (hkind : entry.2.kind ≠ .object → u.kind = entry.2.kind) :
    m.effect? v = none ↔ phase = .composites ∧ fields.length ≠ 1 ∧ ∃ x rest,
      registry.fragment? attributes resolve entry = some (.array (x :: rest)) := by
  rw [effect?]
  cases h with
  | place x halone hdoes =>
    obtain ⟨v', hv'⟩ := Option.isSome_iff_exists.mp (Value.isSome_write?_of_get? hw x)
    rw [hdoes, Instruction.effects?, Instruction.effect?, hv']
    constructor
    · intro hnone
      cases hnone
    · rintro ⟨hphase, hmany, -⟩
      exact absurd (halone hphase) hmany
  -- The key can be removed; what is left is an object, into which an array does not go.
  | merge z hphase hmany hfragment hdoes =>
    obtain ⟨v', left, hv', hleft⟩ :=
      Value.exists_remove?_field hw (hpath ▸ Option.isSome_iff_exists.mpr ⟨u, hu⟩)
    rw [hdoes, Instruction.effects?, Instruction.effect?, hpath, hv', Option.bind_some,
      Instruction.effects?, Instruction.effect?, hfragment]
    have hone : ((Value.overlay? m.wrapper z v').bind (Instruction.effects? [])) = none ↔
        Value.overlay? m.wrapper z v' = none := by
      rw [show Instruction.effects? [] = some from rfl, Option.bind_fun_some]
    rw [hone, Value.overlay?_object_eq_none_iff hleft]
    simp [hphase, hmany]
  -- The value of the key has a text, since it is still of its kind.
  | encode form hnone hjoin hdoes =>
    obtain ⟨text, htext⟩ : ∃ text, form.render u = .ok text :=
      Transform.exists_render fun hform => (hkind (by simp [hjoin hform])).trans (hjoin hform)
    obtain ⟨v', hv'⟩ := Option.isSome_iff_exists.mp (Value.isSome_write?_of_get? hw (.string text))
    rw [hdoes, Instruction.effects?, Instruction.effect?, hu, Option.bind_some, htext]
    constructor
    · intro hfails
      have hwrites : (v.write? m.wrapper (.string text)).bind (Instruction.effects? []) = none :=
        hfails
      rw [hv'] at hwrites
      cases hwrites
    · rintro ⟨hphase, -, x, rest, hfragment⟩
      rw [hnone hphase] at hfragment
      cases hfragment

/-- The error of a modifier that is to merge an array into its wrapper.  The key is removed before,
so the overlay meets an object that has lost a field. -/
theorem eq_of_error (h : m.Plan registry attributes resolve phase fields entry)
    (hpath : m.path = m.wrapper ++ [.field entry.1]) {d d' : Document} (hd : d.InShape)
    (hw : d.toValue.get? m.wrapper = some (.object more)) (hu : d.toValue.get? m.path = some u)
    (hphase : phase = .composites) (hmany : fields.length ≠ 1) {x : Value} {rest : List Value}
    (hfragment : registry.fragment? attributes resolve entry = some (.array (x :: rest)))
    {e : MacroError} (ha : (m.apply d).value = (.error e, d')) :
    e = .modifierExecution m.text m.macroName
      (.document (.typeMismatch m.wrapper.text .array .object)) := by
  cases h with
  | place y halone hdoes => exact absurd (halone hphase) hmany
  | encode form hnone hjoin hdoes =>
    rw [hnone hphase] at hfragment
    cases hfragment
  -- The removal of the key succeeds, and the overlay after it fails.
  | merge z _ _ hz hdoes =>
    obtain rfl := Option.some.inj (hz.symm.trans hfragment)
    obtain ⟨v', left, hv', hleft⟩ :=
      Value.exists_remove?_field hw (hpath ▸ Option.isSome_iff_exists.mpr ⟨u, hu⟩)
    have hdelete : (Instruction.delete m.path).Ordered := trivial
    obtain ⟨_, d₁, hrun, hshape, hvalue⟩ :=
      (Instruction.mirrors_apply hdelete).of_some hd (hpath ▸ hv')
    have hoverlay : ((Instruction.overlay m.wrapper (.array (x :: rest))).apply d₁).value
        = (.error (.document (.typeMismatch m.wrapper.text .array .object)), d₁) :=
      Edit.value_mapError_error_iff.mpr
        ⟨_, Document.overlay_array_of_object hshape (hvalue ▸ hleft) x rest, rfl⟩
    rw [apply, hdoes, value_applyInstructions_cons, hrun] at ha
    simp only [value_applyInstructions_cons, hoverlay] at ha
    exact (Except.error.inj (Prod.mk.inj ha).1).symm

end Modifier.Plan

namespace Evaluator

variable {space : String} {attributes : Attributes} {settings : Settings} {kindCheck : Bool}
  {resolve : Resolve} {phase : Phase} {doc : Document} {pending : Pending} {m : Modifier}
  {before after : List Modifier} {v u : Value}

/-- Every modifier of a walk after the first phase has a plan.  The plan is read off the
instructions that the macro of the key makes, and off what the wrapper held at the time of the walk.
-/
theorem exists_plan (h : doc.InShape) (hp : phase ≠ .directives)
    (hw : ((builtin space attributes settings kindCheck).walkWith resolve phase doc).value
      = .ok pending) (hm : m ∈ pending.all) :
    ∃ fields entry, doc.toValue.get? m.wrapper = some (.object fields) ∧ entry ∈ fields ∧
      m.path = m.wrapper ++ [.field entry.1] ∧ doc.toValue.get? m.path = some entry.2 ∧
      m.Plan (.builtin space attributes) attributes resolve phase fields entry := by
  obtain ⟨branch, hb, hy⟩ := exists_yield_of_mem_all h hw hm
  obtain ⟨key, invocation, factory, hk, hl, hf⟩ := exists_lookup_of_yield hy
  obtain ⟨w, u, hpath, hu, hkind⟩ := h.get?_of_fieldName? hb hk
  obtain ⟨r, hr, hd, rfl, hphase⟩ := (Registry.consistsOf_builtin space attributes).mem_of_lookup hl
  obtain ⟨fields, hfields, hfind⟩ := Value.get?_field_eq_some_iff.mp (hpath ▸ hu)
  have hwrapper : Macro.wrapper branch = w := Macro.wrapper_of_path hpath
  have hl' : (Registry.builtin space attributes).lookup phase key
    = some (invocation, r.factory) := hl
  suffices hplan : m.path = branch.path ∧ (m.wrapper = w →
      m.Plan (.builtin space attributes) attributes resolve phase fields (key, u)) by
    obtain ⟨hbound, hplan⟩ := hplan
    have hw : m.wrapper = w := Modifier.wrapper_of_path (hbound.trans hpath)
    refine ⟨fields, (key, u), hw ▸ hfields, Fields.mem_of_find? hfind, ?_, hbound ▸ hu, hplan hw⟩
    rw [hw, hbound, hpath]
  -- By the macro that is called: a lookup of a scalar or a composite, or an encoder.
  rcases Macro.form?_of_mem_builtins hr (hphase ▸ hp) with ⟨hform, hfactory⟩ |
      ⟨accepted, form, hform, hfactory, haccepted⟩
  · rw [hfactory] at hf
    obtain ⟨⟨s, y⟩, hlook, hm⟩ := Macro.value_lookup_eq_ok_iff.mp hf
    have hnamed := Macro.named?_of_lookupAttribute h hu hkind hlook
    rcases Macro.modifierFor_eq_ok_iff.mp hm with
      ⟨hscalar, rfl⟩ | ⟨hcomposite, x, is, hx, hplace, rfl⟩
    · refine ⟨rfl, fun hw => .place y (fun hcomposites => ?_) (by rw [hw, ← hwrapper]; rfl)⟩
      subst hcomposites
      rcases Registry.lookup_composites hl' with ⟨hjoin, -⟩ | ⟨-, hcontainer⟩
      · rw [← hd, hform] at hjoin
        cases hjoin
      · rw [hscalar] at hcontainer
        cases hcontainer
    · have hput := (Macro.placeComposite_of_get? h (hwrapper ▸ hfields) x).symm.trans hplace
      obtain rfl := Except.ok.inj hput
      have hcomposites : phase = .composites := Macro.phase_of_container hl' hcomposite
      subst hcomposites
      refine ⟨rfl, fun hw => ?_⟩
      by_cases hone : fields.length = 1
      · refine .place x (fun _ => hone) ?_
        rw [hw, ← hwrapper]
        exact if_pos hone
      · refine .merge x rfl hone (Registry.fragment?_eq_some_iff.mpr
          ⟨_, y, hl', hd ▸ hform, hcomposite, hnamed, by rw [hx]; rfl⟩) ?_
        rw [hw, ← hwrapper]
        exact if_neg hone
  · rw [hfactory] at hf
    obtain ⟨hin, rfl⟩ := Macro.value_encode_eq_ok_iff.mp hf
    refine ⟨rfl, fun hw => .encode form (fun hcomposites => ?_) (fun hjoin => ?_)
      (by rw [hw, ← hwrapper]; rfl)⟩
    · subst hcomposites
      refine Option.eq_none_iff_forall_ne_some.mpr fun z hz => ?_
      have hnone := Registry.form?_of_fragment hz
      rw [Registry.form?, hl', Option.bind_some, ← hd, hform] at hnone
      cases hnone
    · rw [haccepted hjoin, hkind] at hin
      exact List.mem_singleton.mp hin

/-! ## Faults -/

/-- A modifier that is to merge an array into its wrapper fails at its turn.  The fault is told by
what the document held at the time of the walk, and it is still so at the turn. -/
theorem effect?_of_clash (h : doc.InShape) (hp : phase ≠ .directives)
    (hev : (builtin space attributes settings kindCheck).Rewriting resolve)
    (hw : ((builtin space attributes settings kindCheck).walkWith resolve phase doc).value
      = .ok pending)
    (hdistinct : (pending.inOrder.map Modifier.wrapper).Nodup)
    (hs : pending.inOrder = before ++ m :: after)
    (he : Modifier.effectEach? before doc.toValue = some v) {cause : DocumentError}
    (hfault : m.Fault (.builtin space attributes) attributes resolve phase doc.toValue cause) :
    m.effect? v = none := by
  have hm : m ∈ pending.all :=
    Pending.mem_inOrder.mp (hs ▸ List.mem_append_right _ List.mem_cons_self)
  obtain ⟨fields, entry, hfields, hentry, hpath, hu, hplan⟩ := exists_plan h hp hw hm
  obtain ⟨⟨more, hmore⟩, u, hu', hkind⟩ := turn_of_split h hp hev hw hdistinct hs he hu
  cases hfault with
  | root hphase => exact absurd hphase hp
  | @clash others other x rest hphase hothers hmany hother hpath' hfragment =>
    obtain rfl := Value.object.inj (Option.some.inj (hfields.symm.trans hothers))
    -- Names tell the fields of one object apart.
    have hname : entry.1 = other.1 :=
      Key.field.inj (List.cons.inj (List.append_cancel_left (hpath.symm.trans hpath'))).1
    have hordered : Fields.Ordered fields := (h.ordered.get? hfields).1
    have hsame := (hordered.find?_of_mem hentry).symm.trans (hname ▸ hordered.find?_of_mem hother)
    obtain rfl : entry = other := Prod.ext hname (Option.some.inj hsame)
    exact (hplan.effect?_eq_none_iff hpath hmore hu' hkind).mpr ⟨hphase, hmany, x, rest, hfragment⟩

/-- In the first phase a modifier fails at its turn exactly when it is to delete the root.  Every
other wrapper is still there: the deletions before have spared it. -/
theorem effect?_eq_none_iff_root (h : doc.InShape)
    (hw : ((builtin space attributes settings kindCheck).walkWith resolve .directives doc).value
      = .ok pending)
    (hdistinct : (pending.inOrder.map Modifier.wrapper).Nodup)
    (hs : pending.inOrder = before ++ m :: after)
    (he : Modifier.effectEach? before doc.toValue = some v) :
    m.effect? v = none ↔ m.wrapper = [] := by
  have hall : ∀ a ∈ pending.inOrder, a.instructions = [.delete a.wrapper] := fun a ha =>
    (deletion_of_mem_all h hw (Pending.mem_inOrder.mp ha)).1
  have hm : m ∈ pending.all :=
    Pending.mem_inOrder.mp (hs ▸ List.mem_append_right _ List.mem_cons_self)
  obtain ⟨fields, -, -, hfields, -⟩ := exists_field_of_mem_all h hw hm
  have hspares := pairwise_wrappers h hw ((perm_wrappers h hw).nodup_iff.mp hdistinct)
  rw [hs] at hspares hall
  rw [List.map_append, List.map_cons] at hspares
  rw [Modifier.effectEach?_eq_removeEach? fun a ha => hall a (List.mem_append_left _ ha)] at he
  -- What was deleted before has spared the wrapper, so only the root cannot be removed.
  have hthere : (v.get? m.wrapper).isSome :=
    Value.isSome_get?_of_removeEach? h.ordered he
      (fun p hp => (List.pairwise_append.mp hspares).2.2 p hp _ List.mem_cons_self)
      (Option.isSome_iff_exists.mpr ⟨_, hfields⟩)
  have hremove : m.effect? v = v.remove? m.wrapper := by
    rw [Modifier.effect?, hall m (List.mem_append_right _ List.mem_cons_self)]
    exact Option.bind_fun_some _
  rw [hremove, ← Option.not_isSome_iff_eq_none, Value.isSome_remove?_iff]
  simp [hthere]

/-- A deletion in the root is a fault. -/
theorem fault_of_root (h : doc.InShape)
    (hw : ((builtin space attributes settings kindCheck).walkWith resolve .directives doc).value
      = .ok pending) (hm : m ∈ pending.all) (hroot : m.wrapper = []) :
    m.Fault (.builtin space attributes) attributes resolve .directives doc.toValue .rootDelete := by
  obtain ⟨-, w, name, hpath, hdeletes, hsome⟩ := deletion_of_mem_all h hw hm
  obtain rfl : w = [] := (Modifier.wrapper_of_path hpath).symm.trans hroot
  rw [hpath] at hsome
  exact .root rfl hroot ((Value.holds_iff h.ordered).mpr ⟨name, hdeletes, hsome⟩)

/-- A modifier with a fault fails at its turn. -/
theorem effect?_of_fault (h : doc.InShape)
    (hev : (builtin space attributes settings kindCheck).Rewriting resolve)
    (hw : ((builtin space attributes settings kindCheck).walkWith resolve phase doc).value
      = .ok pending)
    (hdistinct : (pending.inOrder.map Modifier.wrapper).Nodup)
    (hs : pending.inOrder = before ++ m :: after)
    (he : Modifier.effectEach? before doc.toValue = some v) {cause : DocumentError}
    (hfault : m.Fault (.builtin space attributes) attributes resolve phase doc.toValue cause) :
    m.effect? v = none := by
  by_cases hp : phase = .directives
  · subst hp
    cases hfault with
    | root _ hroot => exact (effect?_eq_none_iff_root h hw hdistinct hs he).mpr hroot
    | clash hphase => cases hphase
  · exact effect?_of_clash h hp hev hw hdistinct hs he hfault

/-- A modifier that fails at its turn does so for a fault, and the error tells it.  In the first
phase only the root can fail, and later only what has a plan to merge an array. -/
theorem fault_of_error (h : doc.InShape)
    (hev : (builtin space attributes settings kindCheck).Rewriting resolve)
    (hw : ((builtin space attributes settings kindCheck).walkWith resolve phase doc).value
      = .ok pending)
    (hdistinct : (pending.inOrder.map Modifier.wrapper).Nodup)
    (hs : pending.inOrder = before ++ m :: after) {d d' : Document} (hd : d.InShape)
    (he : Modifier.effectEach? before doc.toValue = some d.toValue) {e : MacroError}
    (ha : (m.apply d).value = (.error e, d')) :
    ∃ cause, m.Fault (.builtin space attributes) attributes resolve phase doc.toValue cause ∧
      e = .modifierExecution m.text m.macroName (.document cause) := by
  have hm : m ∈ pending.all :=
    Pending.mem_inOrder.mp (hs ▸ List.mem_append_right _ List.mem_cons_self)
  have ho : m.Ordered := (collected_of_walk h hev hw).ordered m hm
  have hnone : m.effect? d.toValue = none := by
    have hmirrors := Modifier.mirrors_apply ho d hd
    rwa [ha] at hmirrors
  by_cases hp : phase = .directives
  · subst hp
    have hroot := (effect?_eq_none_iff_root h hw hdistinct hs he).mp hnone
    refine ⟨_, fault_of_root h hw hm hroot, ?_⟩
    -- The only way to fail is at the root.
    have hdelete : ((Instruction.delete []).apply d).value
        = (.error (.document .rootDelete), d) := rfl
    rw [Modifier.apply, (deletion_of_mem_all h hw hm).1, hroot,
      Modifier.value_applyInstructions_cons, hdelete] at ha
    exact (Except.error.inj (Prod.mk.inj ha).1).symm
  · obtain ⟨fields, entry, hfields, hentry, hpath, hu, hplan⟩ := exists_plan h hp hw hm
    obtain ⟨⟨more, hmore⟩, u, hu', hkind⟩ := turn_of_split h hp hev hw hdistinct hs he hu
    obtain ⟨hphase, hmany, x, rest, hfragment⟩ :=
      (hplan.effect?_eq_none_iff hpath hmore hu' hkind).mp hnone
    exact ⟨_, .clash hphase hfields hmany hentry hpath hfragment,
      hplan.eq_of_error hpath hd hmore hu' hphase hmany hfragment ha⟩

/-- After a walk in which no object holds two keys of the phase, applying the modifiers succeeds
exactly when there is no fault.  If it fails it is for the fault of a modifier, and the error is
that of the modifier, with the cause that goes with the fault. -/
theorem applyAll_faults (ha : attributes.Ordered) (hr : doc.Reachable)
    (hw : ((builtin space attributes settings kindCheck).walk phase doc).value = .ok pending)
    (hsingle : ∀ path fields, doc.toValue.get? path = some (.object fields) →
      (fields.filter fun entry =>
        ((Registry.builtin space attributes).lookup phase entry.1).isSome).length ≤ 1) :
    let evaluator := builtin space attributes settings kindCheck
    let Fault (m : Modifier) (cause : DocumentError) : Prop :=
      m.Fault evaluator.registry attributes evaluator.resolveFully phase doc.toValue cause
    ((∃ n doc', (pending.applyAll doc).value = (.ok n, doc')) ↔
        ∀ m ∈ pending.all, ∀ cause, ¬ Fault m cause) ∧
      ∀ e doc', (pending.applyAll doc).value = (.error e, doc') →
        ∃ m ∈ pending.all, ∃ cause, Fault m cause ∧
          e = .modifierExecution m.text m.macroName (.document cause) := by
  intro evaluator Fault
  have h := hr.inShape
  have hev : (builtin space attributes settings kindCheck).Rewriting
      (builtin space attributes settings kindCheck).resolveFully := rewriting_resolve ha _
  have hdistinct := nodup_wrappers h hw hsingle
  have hordered : ∀ m ∈ pending.all, m.Ordered := (collected_of_walk h hev hw).ordered
  have herror : ∀ e doc', (pending.applyAll doc).value = (.error e, doc') →
      ∃ m ∈ pending.all, ∃ cause, Fault m cause ∧
        e = .modifierExecution m.text m.macroName (.document cause) := by
    intro e doc' hrun
    obtain ⟨before, m, after, d, hs, hbefore, hm⟩ :=
      (Edit.value_each_error_iff Modifier.applyEach Modifier.apply rfl fun _ _ _ => rfl).mp
        (Pending.value_applyAll_error_iff.mp hrun)
    have hall : ∀ a ∈ before, a.Ordered := fun a ha =>
      hordered a (Pending.mem_inOrder.mp (hs ▸ List.mem_append_left _ ha))
    obtain ⟨hd, he⟩ := (Modifier.mirrors_applyEach hall).of_ok h hbefore
    obtain ⟨cause, hfault, he⟩ := fault_of_error h hev hw hdistinct hs hd he hm
    exact ⟨m, Pending.mem_inOrder.mp (hs ▸ List.mem_append_right _ List.mem_cons_self), cause,
      hfault, he⟩
  refine ⟨⟨?_, fun hnone => ?_⟩, herror⟩
  · -- A modifier with a fault has no effect at its turn, so the modifiers together have none.
    rintro ⟨n, doc', hrun⟩ m hm cause hfault
    obtain ⟨-, heffect⟩ := (Pending.mirrors_applyAll hordered).of_ok h hrun
    obtain ⟨before, after, hs⟩ := List.append_of_mem (Pending.mem_inOrder.mpr hm)
    rw [hs, Modifier.effectEach?_eq_foldlM, List.foldlM_append] at heffect
    obtain ⟨v, hv, heffect⟩ := Option.bind_eq_some_iff.mp heffect
    rw [← Modifier.effectEach?_eq_foldlM] at hv
    have hnone := effect?_of_fault h hev hw hdistinct hs hv hfault
    rw [List.foldlM_cons, hnone] at heffect
    cases heffect
  · rcases hrun : (pending.applyAll doc).value with ⟨e | n, doc'⟩
    · obtain ⟨m, hm, cause, hfault, -⟩ := herror e doc' hrun
      exact absurd hfault (hnone m hm cause)
    · exact ⟨n, doc', rfl⟩

/-- A lookup of an array that has a field beside it.  The array cannot go into the object, so the
phase fails with the paths of the key and of the wrapper. -/
theorem applyAll_faults_of_array :
    let attributes : Attributes := [("r", .inferred (.array [.whole 1]))]
    let evaluator := builtin "k" attributes {} false
    let doc := Document.ofValue (.object
      [("a", .object [("k.Array.Lookup", .string "r"), ("x", .null)])])
    ∃ pending doc', (evaluator.walk .composites doc).value = .ok pending ∧
      (pending.applyAll doc).value = (.error (.modifierExecution
        (Path.text [.field "a", .field "k.Array.Lookup"]) "k.Array.Lookup"
        (.document (.typeMismatch (Path.text [.field "a"]) .array .object))), doc') := by
  intro attributes evaluator doc
  have ha : attributes.Ordered := List.forall_mem_singleton.mpr ⟨trivial, trivial⟩
  have hr : doc.Reachable := .ofValue (by
    simp only [Value.Ordered, Value.OrderedFields, Fields.Ordered]
    decide)
  have houtline : ((evaluator.walk .composites doc).value.map fun pending =>
      pending.all.map fun m => (m.path, m.macroName)).toOption
        = some [([.field "a", .field "k.Array.Lookup"], "k.Array.Lookup")] := by
    decide +kernel
  have hsingle : ∀ fields ∈ doc.objects, (fields.filter fun entry =>
      ((Registry.builtin "k" attributes).lookup .composites entry.1).isSome).length ≤ 1 := by
    decide +kernel
  have hwrapper : doc.toValue.get? [.field "a"]
      = some (.object [("k.Array.Lookup", .string "r"), ("x", .null)]) := by
    decide +kernel
  have hfragment : (Registry.builtin "k" attributes).fragment? attributes evaluator.resolveFully
      ("k.Array.Lookup", .string "r") = some (.array [.whole 1]) := by
    decide +kernel
  rcases hw : (evaluator.walk .composites doc).value with e | pending
  · rw [hw] at houtline
    cases houtline
  rw [hw] at houtline
  obtain ⟨m, hall, hm⟩ := List.map_eq_singleton_iff.mp (Option.some.inj houtline)
  obtain ⟨hpath, hname⟩ := Prod.mk.inj hm
  have hown : m.wrapper = [.field "a"] := by rw [Modifier.wrapper, hpath]; rfl
  obtain ⟨hruns, hfails⟩ := applyAll_faults ha hr hw fun path fields hfields =>
    hsingle fields (Document.mem_objects_of_get? hfields)
  -- Either the run fails, for the only fault there can be, or it succeeds in spite of it.
  rcases hrun : (pending.applyAll doc).value with ⟨e | n, doc'⟩
  · obtain ⟨other, hin, cause, hfault, rfl⟩ := hfails e doc' hrun
    obtain rfl : other = m := List.mem_singleton.mp (hall ▸ hin)
    refine ⟨pending, doc', rfl, hrun.trans ?_⟩
    cases hfault with
    | root hphase => cases hphase
    | clash => rw [Modifier.text, hpath, hname, hown]
  · have hclash := Modifier.Fault.clash (m := m) rfl (hown ▸ hwrapper) (by decide)
      List.mem_cons_self (by rw [hpath, hown]; rfl) hfragment
    exact absurd hclash (hruns.mp ⟨n, doc', hrun⟩ m (hall ▸ List.mem_cons_self) _)

end Evaluator

end Expansion
