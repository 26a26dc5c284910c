import Expansion.Proofs.Macro.Wrapper

/-!
  A phase runs inside out.

  The modifiers of a phase run deepest first, and those of one wrapper in descending order of their
  keys (`map_path_filter`).  After the first phase each of them edits its wrapper, so all together
  are one pass from the bottom up, in which the keys of an object run in turn on the object as it is
  when its parts are done (`effectEach?_inOrder`, `foldlM_act?_eq_runKeys?`).

  To know what a phase does it is therefore enough to know what the keys of a single object make of
  it.  If they settle every object or fail, the phase rewrites the document, and succeeds when they
  do (`applyAll_rewrites`).
-/

namespace Expansion

/-! ## The keys of one wrapper -/

namespace Value

/-- What is found under a name is a field of an object. -/
theorem get?_field_eq_some_iff {v u : Value} {w : Path} {name : String} :
    v.get? (w ++ [.field name]) = some u ↔
      ∃ fields, v.get? w = some (object fields) ∧ Fields.find? name fields = some u := by
  have hget : ∀ c : Value, c.get? [.field name] = c.part? (.field name) := fun c =>
    Option.bind_fun_some _
  rw [get?_append, Option.bind_eq_some_iff]
  simp only [hget]
  constructor
  · rintro ⟨c, hc, hu⟩
    cases c with
    | scalar s => cases hu
    | array items => cases hu
    | object fields => exact ⟨fields, hc, hu⟩
  · rintro ⟨fields, hc, hu⟩
    exact ⟨_, hc, hu⟩

end Value

/-- A row that is told by what stands at each place acts like another row that is told the same.  It
is used for modifiers and keys that stand at the same paths. -/
theorem foldlM_congr_of_map_eq {α β γ δ : Type} {f : α → γ} {g : β → γ}
    {step : δ → α → Option δ} {step' : δ → β → Option δ} {as : List α} {bs : List β}
    (h : as.map f = bs.map g)
    (hstep : ∀ a ∈ as, ∀ b ∈ bs, f a = g b → ∀ d, step d a = step' d b) (d : δ) :
    as.foldlM step d = bs.foldlM step' d := by
  induction as generalizing bs d with
  | nil =>
    obtain rfl := List.map_eq_nil_iff.mp h.symm
    rfl
  -- The first entries stand at one place, and so do the others after them.
  | cons a as ih =>
    obtain ⟨b, bs, rfl, hb, hbs⟩ := List.map_eq_cons_iff.mp h.symm
    obtain ⟨hfirst, hrest⟩ := List.forall_mem_cons.mp hstep
    rw [List.foldlM_cons, List.foldlM_cons, (List.forall_mem_cons.mp hfirst).1 hb.symm d]
    refine congrArg _ (funext fun d' => ih hbs.symm (fun a' ha' b' hb' => ?_) d')
    exact hrest a' ha' b' (List.mem_cons_of_mem b hb')

namespace Registry

/-- The keys that call a macro of the phase, among the fields of an object, in the order in which
they run. -/
def turns (registry : Registry) (phase : Phase) (fields : Fields Value) : Fields Value :=
  (fields.filter fun entry => (registry.lookup phase entry.1).isSome).reverse

/-- What a key asks of the object that holds it. -/
def asks? (registry : Registry) (attributes : Attributes) (resolve : Evaluator.Resolve)
    (phase : Phase) (fields : Fields Value) (entry : String × Value) : Option (List Instruction) :=
  (registry.lookup phase entry.1).bind fun found =>
    found.1.definition.asks? attributes resolve fields entry.1 entry.2

/-- What a key makes of the object that holds it; the fields are those at the time of the walk. -/
def act? (registry : Registry) (attributes : Attributes) (resolve : Evaluator.Resolve)
    (phase : Phase) (fields : Fields Value) (c : Value) (entry : String × Value) : Option Value :=
  (registry.asks? attributes resolve phase fields entry).bind fun is => Instruction.effects? is c

/-- What the keys of an object make of it, one after the other. -/
def runKeys? (registry : Registry) (attributes : Attributes) (resolve : Evaluator.Resolve)
    (phase : Phase) (fields : Fields Value) : Value → Option Value :=
  (registry.turns phase fields).foldlM (registry.act? attributes resolve phase fields)

/-- The keys of an object settle it, when it is rewritten inside, or fail. -/
def Settles (registry : Registry) (attributes : Attributes) (resolve : Evaluator.Resolve)
    (phase : Phase) (settle : Fields Value → Fields Value → Value) (fields : Fields Value) : Prop :=
  registry.runKeys? attributes resolve phase fields (.object (Value.rewriteFields settle fields))
      = none ∨
    registry.runKeys? attributes resolve phase fields (.object (Value.rewriteFields settle fields))
      = some (settle fields (Value.rewriteFields settle fields))

/-- The keys of every object in a value settle the object or fail. -/
def KeysSettle (registry : Registry) (attributes : Attributes) (resolve : Evaluator.Resolve)
    (phase : Phase) (settle : Fields Value → Fields Value → Value) (v : Value) : Prop :=
  ∀ p fields, v.get? p = some (.object fields) →
    registry.Settles attributes resolve phase settle fields

/-- The keys run in descending order of name. -/
theorem pairwise_turns {fields : Fields Value} (h : Fields.Ordered fields) (registry : Registry)
    (phase : Phase) : (registry.turns phase fields).Pairwise fun a b => b.1 < a.1 :=
  List.pairwise_reverse.mpr (h.filter _)

/-- The paths of the keys are in descending order. -/
theorem pairwise_paths_turns {fields : Fields Value} (h : Fields.Ordered fields)
    (registry : Registry) (phase : Phase) (p : Path) :
    ((registry.turns phase fields).map (p ++ [.field ·.1])).Pairwise
      fun q r => q.cmp r = .gt := by
  refine List.pairwise_map.mpr ((pairwise_turns h registry phase).imp fun {a b} hlt => ?_)
  have hcmp : compareOfLessAndEq a.1 b.1 = .gt := by
    rw [compareOfLessAndEq, if_neg (String.lt_asymm hlt), if_neg (String.ne_of_lt hlt).symm]
  rw [Path.cmp_append]
  show (compareOfLessAndEq a.1 b.1).then .eq = .gt
  rw [hcmp]
  rfl

/-- The keys that run are the fields whose names call a macro of the phase. -/
theorem mem_turns {registry : Registry} {phase : Phase} {fields : Fields Value}
    {entry : String × Value} :
    entry ∈ registry.turns phase fields ↔
      entry ∈ fields ∧ (registry.lookup phase entry.1).isSome := by
  rw [turns, List.mem_reverse, List.mem_filter]

/-- The number of keys that run. -/
theorem length_turns (registry : Registry) (phase : Phase) (fields : Fields Value) :
    (registry.turns phase fields).length
      = (fields.filter fun entry => (registry.lookup phase entry.1).isSome).length :=
  List.length_reverse

/-- An object has no more keys than fields. -/
theorem length_turns_le (registry : Registry) (phase : Phase) (fields : Fields Value) :
    (registry.turns phase fields).length ≤ fields.length := by
  rw [length_turns]
  exact List.length_filter_le _ _

end Registry

/-! ## Keys that make a text -/

/-- Where only some entries of a row have a value, these are enough to find the first. -/
theorem findSome?_filter_of_none {α β : Type} {p : α → Bool} {f : α → Option β} {row : List α}
    (h : ∀ a ∈ row, p a = false → f a = none) : (row.filter p).findSome? f = row.findSome? f := by
  induction row with
  | nil => rfl
  | cons a rest ih =>
    obtain ⟨hfirst, hrest⟩ := List.forall_mem_cons.mp h
    cases hp : p a with
    | true => rw [List.filter_cons_of_pos hp, List.findSome?_cons, List.findSome?_cons, ih hrest]
    | false =>
      rw [List.filter_cons_of_neg (by simp [hp]), List.findSome?_cons, hfirst hp, ih hrest]

namespace Registry

/-- The text that a key makes of its value in a phase. -/
def form? (registry : Registry) (phase : Phase) (key : String) : Option Transform :=
  (registry.lookup phase key).bind fun found => found.1.definition.form?

/-- The text that a key has made of its value, once it has run. -/
def text? (registry : Registry) (phase : Phase) (entry : String × Value) : Option Value :=
  (registry.form? phase entry.1).bind fun form => (form.render entry.2).toOption.map .string

variable {registry : Registry} {attributes : Attributes} {resolve : Evaluator.Resolve}
  {phase : Phase} {fields : Fields Value} {entry : String × Value} {form : Transform}
  {settle : Fields Value → Fields Value → Value}

/-- Rewriting an object leaves its keys. -/
theorem turns_rewriteFields (registry : Registry) (phase : Phase) (fields : Fields Value) :
    registry.turns phase (Value.rewriteFields settle fields)
      = (registry.turns phase fields).map fun entry => (entry.1, entry.2.rewrite settle) := by
  rw [Value.rewriteFields_eq_map, turns, turns, List.map_reverse, List.filter_map]
  rfl

/-- The keys of an object are enough to find its first text. -/
theorem findSome?_text? (registry : Registry) (phase : Phase) (fields : Fields Value) :
    fields.findSome? (registry.text? phase)
      = (registry.turns phase fields).reverse.findSome? (registry.text? phase) := by
  rw [turns, List.reverse_reverse]
  refine (findSome?_filter_of_none fun entry _ hpass => ?_).symm
  rw [text?, form?, Option.isNone_iff_eq_none.mp (Option.isSome_eq_false_iff.mp hpass)]
  rfl

/-- A key that makes a text writes it in the place of its wrapper. -/
theorem act?_of_form (hf : registry.form? phase entry.1 = some form) (c : Value) :
    registry.act? attributes resolve phase fields c entry =
      (c.get? [.field entry.1]).bind fun x => (form.render x).toOption.map .string := by
  obtain ⟨found, hl, hform⟩ := Option.bind_eq_some_iff.mp hf
  rw [act?, asks?, hl, Option.bind_some, Macro.Definition.asks?_of_form hform, Option.bind_some]
  show ((c.get? [.field entry.1]).bind fun x => (form.render x).toOption.bind fun text =>
    some (Value.string text)).bind some = _
  rw [Option.bind_fun_some]
  refine congrArg _ (funext fun x => ?_)
  cases (form.render x).toOption <;> rfl

/-- The text of a rewritten value. -/
theorem act?_rewritten_of_form (ho : Fields.Ordered fields) (he : entry ∈ fields)
    (hf : registry.form? phase entry.1 = some form) :
    registry.act? attributes resolve phase fields
        (.object (Value.rewriteFields settle fields)) entry
      = registry.text? phase (entry.1, entry.2.rewrite settle) := by
  have hordered : Fields.Ordered (Value.rewriteFields settle fields) :=
    Value.ordered_rewriteFields ho
  have hget : (Value.object (Value.rewriteFields settle fields)).get? [.field entry.1]
      = some (entry.2.rewrite settle) :=
    (Option.bind_fun_some _).trans (hordered.find?_of_mem (Value.mem_rewriteFields he))
  rw [act?_of_form hf, hget, Option.bind_some, text?, hf, Option.bind_some]

/-- A text has no keys left to run. -/
theorem act?_string_of_form (hf : registry.form? phase entry.1 = some form) (text : String) :
    registry.act? attributes resolve phase fields (.string text) entry = none := by
  rw [act?_of_form hf]
  rfl

end Registry

/-! ## What a walk collects -/

/-- A modifier is bound to the key of a field, and does what the key asks of the object with the
field. -/
structure Modifier.Serves (m : Modifier) (registry : Registry) (attributes : Attributes)
    (resolve : Evaluator.Resolve) (phase : Phase) (fields : Fields Value) (entry : String × Value)
    (is : List Instruction) : Prop where
  path : m.path = m.wrapper ++ [.field entry.1]
  mem : entry ∈ registry.turns phase fields
  asks : registry.asks? attributes resolve phase fields entry = some is
  onlyWrapper : m.Local is

namespace Evaluator

variable {space : String} {attributes : Attributes} {settings : Settings} {kindCheck : Bool}
  {resolve : Resolve} {phase : Phase} {doc : Document} {pending : Pending} {m : Modifier}
  {p : Path} {fields : Fields Value}

/-- A walk that has an answer succeeds with it. -/
theorem exists_walk_of_isSome {evaluator : Evaluator}
    (h : (evaluator.walk phase doc).value.toOption.isSome = true) :
    ∃ pending, (evaluator.walk phase doc).value = .ok pending := by
  cases hw : (evaluator.walk phase doc).value with
  | error e =>
    rw [hw] at h
    cases h
  | ok pending => exact ⟨pending, rfl⟩

/-- Every modifier of a walk serves a key of an object in the document.  The branch of the modifier
is that of a field, so there is an object with the field, and the macro was called for its value. -/
theorem exists_serves (h : doc.InShape) (hp : phase ≠ .directives)
    (hw : ((builtin space attributes settings kindCheck).walkWith resolve phase doc).value
      = .ok pending) (hm : m ∈ pending.all) :
    ∃ fields entry is, doc.toValue.get? m.wrapper = some (.object fields) ∧
      m.Serves (.builtin space attributes) attributes resolve phase fields entry is := by
  obtain ⟨branch, hb, hy⟩ := exists_yield_of_mem_all h hw hm
  obtain ⟨key, invocation, factory, hk, hl, hf⟩ := exists_lookup_of_yield hy
  obtain ⟨w, u, hpath, hu, hkind⟩ := h.get?_of_fieldName? hb hk
  obtain ⟨r, hr, hd, rfl, hphase⟩ := (Registry.consistsOf_builtin space attributes).mem_of_lookup hl
  obtain ⟨fields, hfields, hfind⟩ := Value.get?_field_eq_some_iff.mp (hpath ▸ hu)
  obtain ⟨hbound, is, hasks, hlocal⟩ :=
    Macro.asks?_of_builtin h hpath hfields hu hkind hr (hphase ▸ hp) hd hf
  have hwrapper : m.wrapper = w := Modifier.wrapper_of_path (hbound.trans hpath)
  refine ⟨fields, (key, u), is, hwrapper ▸ hfields, ?_⟩
  constructor
  · rw [hwrapper, hbound, hpath]
  · exact Registry.mem_turns.mpr ⟨Fields.mem_of_find? hfind, Option.isSome_iff_exists.mpr ⟨_, hl⟩⟩
  · have hl' : (Registry.builtin space attributes).lookup phase key
        = some (invocation, r.factory) := hl
    rw [Registry.asks?, hl']
    exact hasks
  · exact hlocal

/-- A walk files the paths of the keys of an object.  One direction reads the field from the path,
the other finds the path of the field among the occurrences. -/
theorem mem_paths_of_wrapper_iff (h : doc.InShape)
    (hw : ((builtin space attributes settings kindCheck).walkWith resolve phase doc).value
      = .ok pending) (hfields : doc.toValue.get? p = some (.object fields)) {q : Path} :
    q ∈ pending.all.map Modifier.path ∧ q.dropLast = p ↔
      ∃ entry ∈ (Registry.builtin space attributes).turns phase fields,
        p ++ [.field entry.1] = q := by
  have hordered : Fields.Ordered fields := (h.ordered.get? hfields).1
  have hbinds := binds_builtin space attributes settings kindCheck
  rw [(perm_paths_of_walk hbinds h hw).mem_iff, Value.mem_occurrences_iff h.ordered]
  constructor
  · rintro ⟨⟨before, name, rfl, hcalls, hs⟩, hlast⟩
    rw [List.dropLast_concat] at hlast
    obtain ⟨x, hx⟩ := Option.isSome_iff_exists.mp hs
    obtain ⟨more, hmore, hx⟩ := Value.get?_field_eq_some_iff.mp hx
    rw [hlast, hfields] at hmore
    obtain rfl := Value.object.inj (Option.some.inj hmore)
    exact ⟨(name, x), Registry.mem_turns.mpr ⟨Fields.mem_of_find? hx, hcalls⟩, hlast ▸ rfl⟩
  · rintro ⟨entry, he, rfl⟩
    obtain ⟨hmem, hcalls⟩ := Registry.mem_turns.mp he
    refine ⟨⟨p, entry.1, rfl, hcalls, Option.isSome_iff_exists.mpr ⟨entry.2, ?_⟩⟩,
      List.dropLast_concat⟩
    exact Value.get?_field_eq_some_iff.mpr ⟨fields, hfields, hordered.find?_of_mem hmem⟩

/-- The modifiers of one wrapper run in descending order of their paths.  They are all one deeper
than the wrapper, so it is the order of the paths that decides. -/
theorem pairwise_paths_of_wrapper (h : doc.InShape)
    (hw : ((builtin space attributes settings kindCheck).walkWith resolve phase doc).value
      = .ok pending) (hfields : doc.toValue.get? p = some (.object fields)) :
    ((pending.inOrder.filter (·.wrapper = p)).map Modifier.path).Pairwise
      fun q r => q.cmp r ≠ .lt := by
  have hlen : ∀ m ∈ pending.inOrder.filter (·.wrapper = p), m.path.length = p.length + 1 := by
    intro m hm
    obtain ⟨hm, hwrapper⟩ := List.mem_filter.mp hm
    obtain ⟨entry, -, hpath⟩ := (mem_paths_of_wrapper_iff h hw hfields).mp
      ⟨List.mem_map_of_mem (Pending.mem_inOrder.mp hm), of_decide_eq_true hwrapper⟩
    rw [← hpath, List.length_append]
    rfl
  refine List.pairwise_map.mpr (List.Pairwise.imp_of_mem (fun {a b} ha hb hab => ?_)
    (pending.pairwise_inOrder.filter _))
  rcases Modifier.runsBefore_iff.mp hab with hlt | ⟨-, hcmp⟩
  · rw [hlen a ha, hlen b hb] at hlt
    exact absurd hlt (Nat.lt_irrefl _)
  · exact hcmp

/-- The modifiers of one wrapper run in the order of its keys.  Both are the same paths, each once,
in descending order, and a list is determined by that. -/
theorem map_path_filter (h : doc.InShape)
    (hw : ((builtin space attributes settings kindCheck).walkWith resolve phase doc).value
      = .ok pending) (hfields : doc.toValue.get? p = some (.object fields)) :
    (pending.inOrder.filter (·.wrapper = p)).map Modifier.path
      = ((Registry.builtin space attributes).turns phase fields).map (p ++ [.field ·.1]) := by
  have hkeys := Registry.pairwise_paths_turns (h.ordered.get? hfields).1
    (Registry.builtin space attributes) phase p
  have hperm : ((pending.inOrder.filter (·.wrapper = p)).map Modifier.path).Perm
      (((Registry.builtin space attributes).turns phase fields).map (p ++ [.field ·.1])) := by
    refine (List.perm_ext_iff_of_nodup ?_ ?_).mpr fun q => ?_
    · have hfiled : pending.Filed := filed_of_visitAll Pending.filed_empty (visitAll_of_walk h hw)
      have hnodup := hfiled.nodup_paths (ordered_of_walk h hw)
      exact ((pending.perm_inOrder.map Modifier.path).nodup_iff.mpr hnodup).sublist
        (List.filter_sublist.map _)
    · refine hkeys.imp fun {q r} hgt heq => ?_
      have hself : r.cmp r = .eq := Std.ReflCmp.compare_self
      rw [heq, hself] at hgt
      contradiction
    · rw [List.mem_map, List.mem_map, ← mem_paths_of_wrapper_iff h hw hfields, List.mem_map]
      constructor
      · rintro ⟨m, hm, rfl⟩
        obtain ⟨hm, hwrapper⟩ := List.mem_filter.mp hm
        exact ⟨⟨m, Pending.mem_inOrder.mp hm, rfl⟩, of_decide_eq_true hwrapper⟩
      · rintro ⟨⟨m, hm, rfl⟩, hwrapper⟩
        exact ⟨m, List.mem_filter.mpr ⟨Pending.mem_inOrder.mpr hm, decide_eq_true hwrapper⟩, rfl⟩
  -- Both sides are sorted, so they are the same.
  refine hperm.eq_of_pairwise (fun q r _ _ hqr hrq => ?_) (pairwise_paths_of_wrapper h hw hfields)
    (hkeys.imp fun hgt => by simp [hgt])
  refine Path.eq_of_cmp ?_
  cases hcmp : q.cmp r with
  | eq => rfl
  | lt => exact absurd hcmp hqr
  | gt => exact absurd (Std.OrientedCmp.lt_of_gt hcmp) hrq

/-- The modifier at the path of a key serves the key.  Some key is served, and it has to be this
one, since its path is. -/
theorem exists_serves_of_path (h : doc.InShape) (hp : phase ≠ .directives)
    (hw : ((builtin space attributes settings kindCheck).walkWith resolve phase doc).value
      = .ok pending) (hfields : doc.toValue.get? p = some (.object fields))
    {entry : String × Value}
    (he : entry ∈ (Registry.builtin space attributes).turns phase fields) (hm : m ∈ pending.all)
    (hpath : m.path = p ++ [.field entry.1]) :
    ∃ is, m.Serves (.builtin space attributes) attributes resolve phase fields entry is := by
  obtain ⟨more, other, is, hmore, hs⟩ := exists_serves h hp hw hm
  have hwrapper : m.wrapper = p := Modifier.wrapper_of_path hpath
  rw [hwrapper, hfields] at hmore
  obtain rfl := Value.object.inj (Option.some.inj hmore)
  -- Names tell the fields of one object apart.
  have hlast := hs.path.symm.trans hpath
  rw [hwrapper] at hlast
  have hname : other.1 = entry.1 :=
    Key.field.inj (List.cons.inj (List.append_cancel_left hlast)).1
  have hordered : Fields.Ordered fields := (h.ordered.get? hfields).1
  have hother := hordered.find?_of_mem (Registry.mem_turns.mp hs.mem).1
  have hentry := hordered.find?_of_mem (Registry.mem_turns.mp he).1
  rw [hname, hentry] at hother
  obtain rfl : other = entry := Prod.ext hname (Option.some.inj hother).symm
  exact ⟨is, hs⟩

/-- Every key that calls a macro asks something of its wrapper, when the walk succeeds. -/
theorem exists_asks (h : doc.InShape) (hp : phase ≠ .directives)
    (hw : ((builtin space attributes settings kindCheck).walkWith resolve phase doc).value
      = .ok pending) (hfields : doc.toValue.get? p = some (.object fields))
    {entry : String × Value}
    (he : entry ∈ (Registry.builtin space attributes).turns phase fields) :
    ∃ is, (Registry.builtin space attributes).asks? attributes resolve phase fields entry
      = some is := by
  have hpath : p ++ [.field entry.1]
      ∈ (pending.inOrder.filter (·.wrapper = p)).map Modifier.path := by
    rw [map_path_filter h hw hfields]
    exact List.mem_map_of_mem he
  obtain ⟨m, hm, hpath⟩ := List.mem_map.mp hpath
  have hall := Pending.mem_inOrder.mp (List.mem_filter.mp hm).1
  obtain ⟨is, hs⟩ := exists_serves_of_path h hp hw hfields he hall hpath
  exact ⟨is, hs.asks⟩

/-- The modifiers of one wrapper, run in turn, do what its keys do. -/
theorem foldlM_act?_eq_runKeys? (h : doc.InShape) (hp : phase ≠ .directives)
    (hw : ((builtin space attributes settings kindCheck).walkWith resolve phase doc).value
      = .ok pending) (hfields : doc.toValue.get? p = some (.object fields)) (c : Value) :
    (pending.inOrder.filter (·.wrapper = p)).foldlM (fun c m => m.act? c) c
      = (Registry.builtin space attributes).runKeys? attributes resolve phase fields c := by
  refine foldlM_congr_of_map_eq (map_path_filter h hw hfields) (fun m hm entry he hpath c => ?_) c
  have hall := Pending.mem_inOrder.mp (List.mem_filter.mp hm).1
  obtain ⟨is, hs⟩ := exists_serves_of_path h hp hw hfields he hall hpath
  rw [hs.onlyWrapper.act?_eq, Registry.act?, hs.asks, Option.bind_some]

/-- Only objects are wrappers. -/
theorem filter_wrapper_eq_nil (h : doc.InShape) (hp : phase ≠ .directives)
    (hw : ((builtin space attributes settings kindCheck).walkWith resolve phase doc).value
      = .ok pending) {u : Value} (hu : doc.toValue.get? p = some u) (hkind : u.kind ≠ .object) :
    pending.inOrder.filter (·.wrapper = p) = [] := by
  refine List.filter_eq_nil_iff.mpr fun m hm hwrapper => ?_
  obtain ⟨fields, entry, is, hfields, -⟩ := exists_serves h hp hw (Pending.mem_inOrder.mp hm)
  rw [of_decide_eq_true hwrapper, hu] at hfields
  obtain rfl := Option.some.inj hfields
  exact hkind rfl

/-! ## A phase as one pass -/

/-- Every modifier of a walk is bound to a field of an object. -/
theorem exists_field_of_mem_all (h : doc.InShape)
    (hw : ((builtin space attributes settings kindCheck).walkWith resolve phase doc).value
      = .ok pending) (hm : m ∈ pending.all) :
    ∃ fields name u, doc.toValue.get? m.wrapper = some (.object fields) ∧
      m.path = m.wrapper ++ [.field name] ∧ Fields.find? name fields = some u := by
  have hbinds := binds_builtin space attributes settings kindCheck
  have hocc := (perm_paths_of_walk hbinds h hw).mem_iff.mp (List.mem_map_of_mem hm)
  obtain ⟨w, name, hpath, -, hs⟩ := (Value.mem_occurrences_iff h.ordered).mp hocc
  obtain ⟨u, hu⟩ := Option.isSome_iff_exists.mp hs
  obtain ⟨fields, hfields, hfind⟩ := Value.get?_field_eq_some_iff.mp (hpath ▸ hu)
  rw [Modifier.wrapper_of_path hpath]
  exact ⟨fields, name, u, hfields, hpath, hfind⟩

/-- Deeper wrappers come first. -/
theorem pairwise_depth (h : doc.InShape)
    (hw : ((builtin space attributes settings kindCheck).walkWith resolve phase doc).value
      = .ok pending) :
    pending.inOrder.Pairwise fun a b => b.wrapper.length ≤ a.wrapper.length := by
  have hlength : ∀ m ∈ pending.inOrder, m.path.length = m.wrapper.length + 1 := by
    intro m hm
    obtain ⟨-, name, -, -, hpath, -⟩ := exists_field_of_mem_all h hw (Pending.mem_inOrder.mp hm)
    rw [hpath, List.length_append]
    rfl
  refine pending.pairwise_inOrder.imp_of_mem fun {a b} ha hb hab => ?_
  have hla := hlength a ha
  have hlb := hlength b hb
  rcases Modifier.runsBefore_iff.mp hab with hlt | ⟨heq, -⟩
  · omega
  · omega

/-- The modifiers of a phase after the first are one pass from the bottom up.  This is where the
order of execution comes in: deeper wrappers come first, so each wrapper is edited when all inside
it is done. -/
theorem effectEach?_inOrder (h : doc.InShape) (hp : phase ≠ .directives)
    (hev : (builtin space attributes settings kindCheck).Rewriting resolve)
    (hw : ((builtin space attributes settings kindCheck).walkWith resolve phase doc).value
      = .ok pending) :
    Modifier.effectEach? pending.inOrder doc.toValue = doc.toValue.bottomUp? fun p c =>
      (pending.inOrder.filter (·.wrapper = p)).foldlM (fun c m => m.act? c) c := by
  have hordered : ∀ m ∈ pending.inOrder, m.Ordered := fun m hm =>
    (collected_of_walk h hev hw).ordered m (Pending.mem_inOrder.mp hm)
  have hserves : ∀ m ∈ pending.inOrder, ∃ fields entry is,
      doc.toValue.get? m.wrapper = some (.object fields) ∧
        m.Serves (.builtin space attributes) attributes resolve phase fields entry is :=
    fun m hm => exists_serves h hp hw (Pending.mem_inOrder.mp hm)
  rw [Modifier.effectEach?_eq_foldlM]
  -- The wrappers are there, each modifier edits its own, and it keeps the order in it.
  refine Value.foldlM_eq_bottomUp? h.ordered (pairwise_depth h hw) ?_ ?_ ?_
  · intro m hm
    obtain ⟨fields, entry, is, hfields, -⟩ := hserves m hm
    exact Option.isSome_iff_exists.mpr ⟨_, hfields⟩
  · intro m hm v hv hwrapper
    obtain ⟨fields, entry, is, -, hs⟩ := hserves m hm
    exact hs.onlyWrapper.effect?_eq_edit? (hordered m hm) hv hwrapper
  · intro m hm c c' hc hact
    obtain ⟨fields, entry, is, -, hs⟩ := hserves m hm
    exact hs.onlyWrapper.ordered_of_act? (hordered m hm) hc hact

/-- When the keys of every object settle it or fail, a phase is a rewriting, and it succeeds when
they do.  The modifiers of a wrapper do what its keys do, and where there is no object there is no
modifier. -/
theorem effectEach?_inOrder_eq_some_iff (h : doc.InShape) (hp : phase ≠ .directives)
    (hev : (builtin space attributes settings kindCheck).Rewriting resolve)
    (hw : ((builtin space attributes settings kindCheck).walkWith resolve phase doc).value
      = .ok pending) {settle : Fields Value → Fields Value → Value}
    (hsettle : (Registry.builtin space attributes).KeysSettle attributes resolve phase settle
      doc.toValue) {v : Value} :
    Modifier.effectEach? pending.inOrder doc.toValue = some v ↔
      v = doc.toValue.rewrite settle ∧
        ∀ p fields, doc.toValue.get? p = some (.object fields) →
          ((Registry.builtin space attributes).runKeys? attributes resolve phase fields
            (.object (Value.rewriteFields settle fields))).isSome := by
  have hkeys : ∀ p fields, doc.toValue.get? p = some (.object fields) → ∀ c,
      (pending.inOrder.filter (·.wrapper = p)).foldlM (fun c m => m.act? c) c
        = (Registry.builtin space attributes).runKeys? attributes resolve phase fields c :=
    fun p fields hfields => foldlM_act?_eq_runKeys? h hp hw hfields
  -- An object is settled by its keys; nothing else is a wrapper.
  have hact : Value.SettlesOrFails settle (fun p c =>
      (pending.inOrder.filter (·.wrapper = p)).foldlM (fun c m => m.act? c) c) doc.toValue := by
    refine ⟨fun p fields hfields => ?_, fun p u hu hkind => ?_⟩
    · have hone := hsettle p fields hfields
      rwa [Registry.Settles, ← hkeys p fields hfields] at hone
    · funext c
      rw [filter_wrapper_eq_nil h hp hw hu hkind]
      rfl
  rw [effectEach?_inOrder h hp hev hw, Value.bottomUp?_eq_some_iff _ h.ordered hact]
  refine and_congr_right fun _ => forall₃_congr fun p fields hfields => ?_
  rw [← hkeys p fields hfields]

/-- A phase that runs to the end rewrites the document, and it does so when the keys of every object
succeed.  So for each phase it is left to tell what the keys of one object do to it. -/
theorem applyAll_rewrites (h : doc.InShape) (hp : phase ≠ .directives)
    (hev : (builtin space attributes settings kindCheck).Rewriting resolve)
    (hw : ((builtin space attributes settings kindCheck).walkWith resolve phase doc).value
      = .ok pending) {settle : Fields Value → Fields Value → Value}
    (hsettle : (Registry.builtin space attributes).KeysSettle attributes resolve phase settle
      doc.toValue) :
    (∀ n doc', (pending.applyAll doc).value = (.ok n, doc') →
        doc'.toValue = doc.toValue.rewrite settle ∧
        ∀ p fields, doc.toValue.get? p = some (.object fields) →
          ((Registry.builtin space attributes).runKeys? attributes resolve phase fields
            (.object (Value.rewriteFields settle fields))).isSome) ∧
      ((∀ p fields, doc.toValue.get? p = some (.object fields) →
          ((Registry.builtin space attributes).runKeys? attributes resolve phase fields
            (.object (Value.rewriteFields settle fields))).isSome) →
        ∃ doc', (pending.applyAll doc).value = (.ok pending.len, doc')) := by
  have hordered : ∀ m ∈ pending.all, m.Ordered := (collected_of_walk h hev hw).ordered
  have heffect := fun v => effectEach?_inOrder_eq_some_iff h hp hev hw hsettle (v := v)
  refine ⟨fun n doc' hrun => ?_, fun hkeys => ?_⟩
  · obtain ⟨-, hvalue⟩ := (Pending.mirrors_applyAll hordered).of_ok h hrun
    exact (heffect _).mp hvalue
  · obtain ⟨doc', hrun, -⟩ :=
      Pending.exists_applyAll_of_effect h hordered ((heffect _).mpr ⟨rfl, hkeys⟩)
    exact ⟨doc', hrun⟩

end Evaluator

end Expansion
