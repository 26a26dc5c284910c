import Expansion.Proofs.Document.Mirror
import Expansion.Proofs.Macro.Complete
import Expansion.Proofs.Macro.Key

/-!
  What a macro key asks for.

  `Evaluator.yield` is what a branch contributes to a walk: the modifier of its macro, nothing, or
  the error that stops the walk.  A walk succeeds when no branch contributes an error
  (`exists_walk_iff`), and what is pending then is what the branches contribute.

  A built-in macro reads nothing of the document but the value of its key and the number of parts of
  its wrapper.  So branches at one path contribute the same in documents whose wrappers there hold
  the same value (`yield_congr`).
-/

namespace Expansion

namespace Value

/-- The number of parts. -/
def width : Value → Nat
  | scalar _ => 0
  | array items => items.length
  | object fields => fields.length

/-- What is of the kind of texts is a text. -/
theorem exists_eq_string {v : Value} (h : v.kind = .string) : ∃ s, v = .string s := by
  cases v with
  | array items => cases h
  | object fields => cases h
  | scalar t =>
    cases t with
    | string s => exact ⟨s, rfl⟩
    | null => cases h
    | boolean b => cases h
    | number n => cases h

end Value

/-! ## Reading by path -/

namespace Document

variable {doc : Document} {path : Path} {v : Value}

/-- What the value holds at a path is read there. -/
theorem InShape.getValue_of_get? (h : doc.InShape) (hv : doc.toValue.get? path = some v) :
    doc.getValue path = .ok v :=
  h.getValue_eq_ok_iff.mpr hv

/-- The node at a path of the value. -/
theorem InShape.exists_slot_of_get? (h : doc.InShape) (hv : doc.toValue.get? path = some v) :
    ∃ (n : Node) (p : Option Nat), n.value = v ∧ doc.get path = .ok n.id ∧
      doc.slot n.id = .ok ⟨p, n.content⟩ := by
  obtain ⟨root, hn⟩ := h
  rw [hn.toValue_eq, ← Node.value_at?] at hv
  obtain ⟨n, hat, hvalue⟩ := Option.map_eq_some_iff.mp hv
  obtain ⟨p, hp⟩ := hn.holds.at? hat
  exact ⟨n, p, hvalue, hn.get_of_at? hat, slot_of_holds hp⟩

/-- A node has as many parts as its value. -/
theorem InShape.children_of_get? (h : doc.InShape) (hv : doc.toValue.get? path = some v) :
    ∃ k parts, doc.get path = .ok k ∧ doc.children k = .ok parts ∧ parts.length = v.width := by
  obtain ⟨n, p, rfl, hget, hslot⟩ := h.exists_slot_of_get? hv
  refine ⟨n.id, n.content.children, hget, congrArg (Except.map _) hslot, ?_⟩
  cases n with
  | scalar id s => rfl
  | array id items =>
    simp [Node.content, Content.children, Node.value, Value.width, Node.valueItems_eq_map]
  | object id fields =>
    simp [Node.content, Content.children, Node.value, Value.width, Node.valueFields_eq_map]

/-- A text is read where the value holds it. -/
theorem InShape.getString_of_get? (h : doc.InShape) {s : String}
    (hv : doc.toValue.get? path = some (.string s)) : doc.getString path = .ok s := by
  obtain ⟨n, p, hvalue, hget, hslot⟩ := h.exists_slot_of_get? hv
  cases n with
  | array id items => cases hvalue
  | object id fields => cases hvalue
  | scalar id t =>
    obtain rfl : t = .string s := Value.scalar.inj hvalue
    simp only [getString, contentOfKind, hget, hslot, bind, Except.bind]
    rfl

/-- What is shown of a branch is the way to a value and its kind. -/
theorem InShape.get?_of_mem_shown (h : doc.InShape) {branch : Branch} (hb : branch ∈ doc.shown) :
    ∃ before key u, branch.path = before ++ [key] ∧ branch.key = some key ∧
      branch.text = branch.path.text ∧ doc.toValue.get? branch.path = some u ∧
      branch.kind = u.kind := by
  obtain ⟨before, key, n, hlead⟩ := h.leads_of_mem_shown branch hb
  have hat : doc.toValue.get? branch.path = some n.value := by
    rw [toValue, ← Node.value_at?, hlead.at?]
    rfl
  exact ⟨before, key, n.value, hlead.path, hlead.key, hlead.text, hat,
    hlead.kind.trans (Node.kind_value n).symm⟩

/-- The branch of a field is the way to the value of the field. -/
theorem InShape.get?_of_fieldName? (h : doc.InShape) {branch : Branch} (hb : branch ∈ doc.shown)
    {name : String} (hn : branch.fieldName? = some name) :
    ∃ w u, branch.path = w ++ [.field name] ∧ doc.toValue.get? branch.path = some u ∧
      branch.kind = u.kind := by
  obtain ⟨w, key, u, hpath, hkey, -, hu, hkind⟩ := h.get?_of_mem_shown hb
  rw [Branch.fieldName?, hkey] at hn
  cases key with
  | index i => cases hn
  | field other =>
    obtain rfl : other = name := Option.some.inj hn
    exact ⟨w, u, hpath, hu, hkind⟩

/-- Every value below the root is shown. -/
theorem exists_mem_shown_of_get? (hp : path ≠ []) (hv : doc.toValue.get? path = some v) :
    ∃ branch ∈ doc.shown, branch.path = path := by
  rw [toValue, ← Node.value_at?] at hv
  obtain ⟨n, hat, -⟩ := Option.map_eq_some_iff.mp hv
  exact exists_mem_shown hp hat

/-- The fields of all objects in a document. -/
def objects (doc : Document) : List (Fields Value) :=
  ([] :: doc.shown.map Branch.path).filterMap fun path => (doc.toValue.get? path).bind fun
    | .object fields => some fields
    | _ => none

/-- The object at a path is one of those in the document. -/
theorem mem_objects_of_get? {path : Path} {fields : Fields Value}
    (hv : doc.toValue.get? path = some (.object fields)) : fields ∈ doc.objects := by
  have hpath : path ∈ [] :: doc.shown.map Branch.path := by
    by_cases hp : path = []
    · exact hp ▸ List.mem_cons_self
    · obtain ⟨branch, hb, rfl⟩ := exists_mem_shown_of_get? hp hv
      exact List.mem_cons_of_mem _ (List.mem_map_of_mem hb)
  exact List.mem_filterMap.mpr ⟨path, hpath, by rw [hv]; rfl⟩

end Document

/-! ## What the built-in macros read -/

namespace Macro

variable {branch branch' : Branch} {doc doc' : Document}

/-- A composite takes the place of a wrapper that holds nothing else, and is merged into any
other. -/
theorem placeComposite_of_get? {u : Value} (h : doc.InShape)
    (hu : doc.toValue.get? (wrapper branch) = some u) (x : Value) :
    placeComposite doc branch x = .ok (if u.width = 1 then [.set (wrapper branch) x]
      else [.delete branch.path, .overlay (wrapper branch) x]) := by
  obtain ⟨k, parts, hget, hchildren, hlength⟩ := h.children_of_get? hu
  simp only [placeComposite, hget, hchildren, hlength, bind, Except.bind]
  split <;> rfl

/-- Two branches of documents look alike to a built-in macro. -/
structure LooksAlike (doc : Document) (branch : Branch) (doc' : Document) (branch' : Branch) :
    Prop where
  path : branch.path = branch'.path
  text : branch.text = branch'.text
  kind : branch.kind = branch'.kind
  string : branch.kind = .string → doc.getString branch.path = doc'.getString branch'.path
  place : ∀ x, placeComposite doc branch x = placeComposite doc' branch' x

/-- Branches that look alike hold values that are taken alike. -/
theorem LooksAlike.expectInput (h : LooksAlike doc branch doc' branch') (invocation : Invocation)
    (accepted : List Kind) :
    expectInput branch invocation accepted = Macro.expectInput branch' invocation accepted := by
  simp only [Macro.expectInput, h.kind, h.text]

/-- Branches that look alike have wrappers at one path. -/
theorem LooksAlike.wrapper (h : LooksAlike doc branch doc' branch') :
    wrapper branch = Macro.wrapper branch' := by
  rw [Macro.wrapper, Macro.wrapper, h.path]

/-- Modifiers of branches that look alike are bound to one path. -/
theorem LooksAlike.bound (h : LooksAlike doc branch doc' branch') (invocation : Invocation) :
    Modifier.bound branch invocation = Modifier.bound branch' invocation := by
  funext instructions
  rw [Modifier.bound, Modifier.bound, h.path]

/-- A built-in macro does the same about branches that look alike. -/
theorem LooksAlike.value_factory (h : LooksAlike doc branch doc' branch') {attributes : Attributes}
    {r : Registered} (hm : r ∈ builtins attributes) (phase : Phase) (space : String)
    (resolve : Value → Logged (Except MacroError Value)) (invocation : Invocation) :
    (r.factory ⟨doc, phase, space, resolve⟩ branch invocation).value
      = (r.factory ⟨doc', phase, space, resolve⟩ branch' invocation).value := by
  rcases factory_of_mem_builtins hm with hf | ⟨accepted, form, hf⟩ | hf <;> rw [hf]
  · -- A lookup reads a text, and it does so only where there is one.
    have hfound : lookupAttribute attributes ⟨doc, phase, space, resolve⟩ branch invocation
        = lookupAttribute attributes ⟨doc', phase, space, resolve⟩ branch' invocation := by
      simp only [lookupAttribute, h.expectInput]
      cases hin : Macro.expectInput branch' invocation [.string] with
      | error e => rfl
      | ok u =>
        have hkind : branch.kind = .string := by
          simp only [Macro.expectInput] at hin
          split at hin
          · rename_i hcontains
            rw [h.kind]
            simpa using hcontains
          · contradiction
        simp only [bind, Except.bind, h.string hkind]
    rw [value_lookup, value_lookup, hfound]
    refine congrArg _ (funext fun found => ?_)
    simp only [modifierFor, h.wrapper, h.bound, h.place]
  · simp only [encode, h.expectInput, h.bound, h.path, h.wrapper]
  · simp only [delete, h.expectInput, h.bound, h.wrapper]

/-- Branches at one path look alike when the wrappers hold the same value.  The branches themselves
may have been issued in different walks, under different handles. -/
theorem looksAlike_of_get? (h : doc.InShape) (h' : doc'.InShape) (hb : branch ∈ doc.shown)
    (hb' : branch' ∈ doc'.shown) (hp : branch.path = branch'.path)
    (hv : doc.toValue.get? (wrapper branch) = doc'.toValue.get? (wrapper branch)) :
    LooksAlike doc branch doc' branch' := by
  obtain ⟨before, key, u, hpath, -, htext, hu, hkind⟩ := h.get?_of_mem_shown hb
  obtain ⟨before', key', u', hpath', -, htext', hu', hkind'⟩ := h'.get?_of_mem_shown hb'
  have hw : wrapper branch = before := wrapper_of_path hpath
  have hw' : wrapper branch' = before := by rw [wrapper, ← hp, ← wrapper, hw]
  rw [hw] at hv
  have hsame : u = u' := by
    rw [← hp, hpath, Value.get?_append, ← hv, ← Value.get?_append, ← hpath] at hu'
    exact Option.some.inj (hu.symm.trans hu')
  subst hsame
  constructor
  · exact hp
  · rw [htext, htext', hp]
  · rw [hkind, hkind']
  · intro hstring
    obtain ⟨s, rfl⟩ := Value.exists_eq_string (hkind ▸ hstring)
    rw [h.getString_of_get? hu, h'.getString_of_get? hu']
  · intro x
    -- The wrapper resolves, since a branch leads on from it.
    obtain ⟨c, hc⟩ : ∃ c, doc.toValue.get? before = some c := by
      rw [hpath, Value.get?_append] at hu
      obtain ⟨c, hc, -⟩ := Option.bind_eq_some_iff.mp hu
      exact ⟨c, hc⟩
    rw [placeComposite_of_get? h (hw.symm ▸ hc) x,
      placeComposite_of_get? h' (by rw [hw', ← hv]; exact hc) x, hp, hw, hw']

end Macro

/-! ## What a branch contributes -/

/-- A key outside the namespace calls nothing. -/
theorem Registry.lookup_of_not_inSpace {registry : Registry} {key : String}
    (h : registry.vocabulary.inSpace key = false) (phase : Phase) :
    registry.lookup phase key = none := by
  have hparse : registry.vocabulary.parse key = none := by
    refine Option.eq_none_iff_forall_ne_some.mpr fun call hcall => ?_
    rw [Macro.Vocabulary.inSpace_of_parse hcall] at h
    contradiction
  rw [lookup, hparse]
  rfl

namespace Evaluator

/-- What a branch contributes to a walk. -/
def yield (evaluator : Evaluator) (resolve : Resolve) (phase : Phase) (doc : Document)
    (branch : Branch) : Except MacroError (Option Modifier) :=
  match branch.fieldName? with
  | none => .ok none
  | some key =>
    match evaluator.registry.lookup phase key with
    | some (invocation, factory) =>
      (factory ⟨doc, phase, evaluator.registry.space, resolve⟩ branch invocation).value.map some
    | none =>
      if evaluator.registry.vocabulary.inSpace key then
        (evaluator.passOver phase branch key).value.map fun _ => none
      else .ok none

variable {evaluator : Evaluator} {resolve : Resolve} {phase : Phase} {doc doc' : Document}
  {branch : Branch} {branches : List Branch} {pending pending' : Pending} {m : Modifier}

/-- A visit adds what the branch contributes.  So a visit depends on what is pending only in what it
adds to. -/
theorem value_visit_eq_yield (evaluator : Evaluator) (resolve : Resolve) (phase : Phase)
    (doc : Document) (pending : Pending) (branch : Branch) :
    (evaluator.visit resolve phase doc pending branch).value =
      (evaluator.yield resolve phase doc branch).map fun found =>
        match found with
        | some m => pending.add m
        | none => pending := by
  rw [value_visit, yield]
  cases branch.fieldName? with
  | none => rfl
  | some key =>
    simp only
    cases evaluator.registry.lookup phase key with
    | some found =>
      obtain ⟨invocation, factory⟩ := found
      simp only
      cases (factory ⟨doc, phase, evaluator.registry.space, resolve⟩ branch invocation).value <;>
        rfl
    | none =>
      simp only
      split
      · cases (evaluator.passOver phase branch key).value <;> rfl
      · rfl

/-- A key outside the namespace contributes nothing. -/
theorem yield_of_not_inSpace {key : String} (hk : branch.fieldName? = some key)
    (h : evaluator.registry.vocabulary.inSpace key = false) :
    evaluator.yield resolve phase doc branch = .ok none := by
  rw [yield, hk]
  simp only [Registry.lookup_of_not_inSpace h, h, Bool.false_eq_true, if_false]

/-- A key that calls a macro contributes what the macro makes. -/
theorem yield_of_lookup {key : String} {invocation : Macro.Invocation} {factory : Macro.Factory}
    (hk : branch.fieldName? = some key)
    (hl : evaluator.registry.lookup phase key = some (invocation, factory)) :
    evaluator.yield resolve phase doc branch =
      (factory ⟨doc, phase, evaluator.registry.space, resolve⟩ branch invocation).value.map
        some := by
  rw [yield, hk]
  simp only [hl]

/-- Under lenient settings a key that calls no macro of the phase contributes nothing. -/
theorem yield_of_lookup_eq_none (hlenient : evaluator.settings.strict = false) {key : String}
    (hk : branch.fieldName? = some key) (hl : evaluator.registry.lookup phase key = none) :
    evaluator.yield resolve phase doc branch = .ok none := by
  have hpass : (evaluator.passOver phase branch key).value = .ok () := by
    rw [value_passOver, hlenient, Bool.and_false, if_neg Bool.false_ne_true]
  rw [yield, hk]
  simp only [hl, hpass]
  split
  · rfl
  · rfl

/-- A modifier that is contributed is made by the macro that the key calls. -/
theorem exists_lookup_of_yield
    (h : evaluator.yield resolve phase doc branch = .ok (some m)) :
    ∃ key invocation factory, branch.fieldName? = some key ∧
      evaluator.registry.lookup phase key = some (invocation, factory) ∧
      (factory ⟨doc, phase, evaluator.registry.space, resolve⟩ branch invocation).value
        = .ok m := by
  rw [yield] at h
  cases hk : branch.fieldName? with
  | none => simp [hk] at h
  | some key =>
    rw [hk] at h
    simp only at h
    -- A key that calls nothing contributes nothing, or an error.
    cases hl : evaluator.registry.lookup phase key with
    | none =>
      rw [hl] at h
      simp only at h
      split at h
      · cases hp : (evaluator.passOver phase branch key).value <;> simp [hp, Except.map] at h
      · simp at h
    | some found =>
      obtain ⟨invocation, factory⟩ := found
      rw [hl] at h
      simp only at h
      cases hf : (factory ⟨doc, phase, evaluator.registry.space, resolve⟩ branch invocation).value
        with
      | error e => simp [hf, Except.map] at h
      | ok made =>
        rw [hf] at h
        obtain rfl : made = m := Option.some.inj (Except.ok.inj h)
        exact ⟨key, invocation, factory, rfl, hl, hf⟩

/-! ## What a walk collects -/

/-- Branches are shown to the end when none contributes an error. -/
theorem exists_visitAll_iff :
    (∃ pending', visitAll (evaluator.visit resolve phase doc) branches pending = .ok pending') ↔
      ∀ branch ∈ branches, ∃ found, evaluator.yield resolve phase doc branch = .ok found := by
  induction branches generalizing pending with
  | nil => simp [visitAll]
  | cons branch rest ih =>
    rw [visitAll, value_visit_eq_yield, List.forall_mem_cons]
    cases evaluator.yield resolve phase doc branch with
    | error e => simp [Except.map]
    | ok found =>
      simp only [Except.map, Except.ok.injEq, exists_eq', true_and]
      exact ih

/-- What is pending after branches are shown was pending before or is contributed.  One modifier may
take the place of another one, so not all that is contributed need be pending. -/
theorem mem_all_of_visitAll
    (hv : visitAll (evaluator.visit resolve phase doc) branches pending = .ok pending')
    (hm : m ∈ pending'.all) :
    m ∈ pending.all ∨
      ∃ branch ∈ branches, evaluator.yield resolve phase doc branch = .ok (some m) := by
  induction branches generalizing pending with
  | nil =>
    obtain rfl : pending = pending' := Except.ok.inj hv
    exact Or.inl hm
  | cons branch rest ih =>
    rw [visitAll, value_visit_eq_yield] at hv
    cases hy : evaluator.yield resolve phase doc branch with
    | error e => simp [hy, Except.map] at hv
    | ok found =>
      rw [hy] at hv
      rcases ih hv with hin | ⟨b, hb, hyield⟩
      · cases found with
        | none => exact Or.inl hin
        | some made =>
          rcases Pending.mem_all_add hin with rfl | hin
          · exact Or.inr ⟨branch, List.mem_cons_self, hy⟩
          · exact Or.inl hin
      · exact Or.inr ⟨b, List.mem_cons_of_mem branch hb, hyield⟩

/-- What adding a modifier preserves holds after branches are shown.  By induction on the branches,
as the visits are made. -/
theorem of_visitAll {P : Pending → Prop} (hadd : ∀ pending m, P pending → P (pending.add m))
    (h : P pending)
    (hv : visitAll (evaluator.visit resolve phase doc) branches pending = .ok pending') :
    P pending' := by
  induction branches generalizing pending with
  | nil =>
    obtain rfl : pending = pending' := Except.ok.inj hv
    exact h
  | cons branch rest ih =>
    rw [visitAll, value_visit_eq_yield] at hv
    cases hy : evaluator.yield resolve phase doc branch with
    | error e => simp [hy, Except.map] at hv
    | ok found =>
      rw [hy] at hv
      cases found with
      | none => exact ih h hv
      | some made => exact ih (hadd pending made h) hv

/-- What is pending is filed in order. -/
theorem ordered_of_walk (h : doc.InShape)
    (hw : (evaluator.walkWith resolve phase doc).value = .ok pending) : pending.Ordered :=
  of_visitAll (P := Pending.Ordered) (fun _ m ho => ho.add m) List.Pairwise.nil
    (visitAll_of_walk h hw)

/-- A walk succeeds when the kind is told and no branch contributes an error. -/
theorem exists_walk_iff (h : doc.InShape) :
    (∃ pending, (evaluator.walkWith resolve phase doc).value = .ok pending) ↔
      (evaluator.checkKind doc).value = .ok () ∧
        ∀ branch ∈ doc.shown, ∃ found, evaluator.yield resolve phase doc branch = .ok found := by
  rw [value_walkWith evaluator resolve phase h]
  cases (evaluator.checkKind doc).value with
  | error e => simp [Except.bind]
  | ok u =>
    simp only [Except.bind, true_and]
    exact exists_visitAll_iff

/-- Under lenient settings a walk succeeds when the kind is told and every macro that is called
makes a modifier. -/
theorem exists_walk_of_lenient (h : doc.InShape) (hlenient : evaluator.settings.strict = false)
    (hkind : (evaluator.checkKind doc).value = .ok ())
    (hmade : ∀ branch ∈ doc.shown, ∀ key invocation factory, branch.fieldName? = some key →
      evaluator.registry.lookup phase key = some (invocation, factory) →
      ∃ m, (factory ⟨doc, phase, evaluator.registry.space, resolve⟩ branch invocation).value
        = .ok m) :
    ∃ pending, (evaluator.walkWith resolve phase doc).value = .ok pending := by
  refine (exists_walk_iff h).mpr ⟨hkind, fun branch hb => ?_⟩
  cases hk : branch.fieldName? with
  | none => exact ⟨none, by rw [yield, hk]⟩
  | some key =>
    cases hl : evaluator.registry.lookup phase key with
    | none => exact ⟨none, yield_of_lookup_eq_none hlenient hk hl⟩
    | some found =>
      obtain ⟨invocation, factory⟩ := found
      obtain ⟨m, hm⟩ := hmade branch hb key invocation factory hk hl
      refine ⟨some m, ?_⟩
      rw [yield_of_lookup hk hl, hm]
      rfl

/-- What is pending after a walk is contributed by a branch. -/
theorem exists_yield_of_mem_all (h : doc.InShape)
    (hw : (evaluator.walkWith resolve phase doc).value = .ok pending) (hm : m ∈ pending.all) :
    ∃ branch ∈ doc.shown, evaluator.yield resolve phase doc branch = .ok (some m) := by
  rcases mem_all_of_visitAll (visitAll_of_walk h hw) hm with hin | hyield
  · cases hin
  · exact hyield

/-! ## The built-in macros -/

section

variable {space : String} {attributes : Attributes} {settings : Settings} {kindCheck : Bool}
  {branch' : Branch}

/-- Without the check any kind passes. -/
theorem value_checkKind_false (doc : Document) :
    ((builtin space attributes settings false).checkKind doc).value = .ok () := by
  rw [value_checkKind]
  rfl

/-- Branches at one path contribute the same when the wrappers hold the same value.  What else the
documents hold makes no difference. -/
theorem yield_congr (h : doc.InShape) (h' : doc'.InShape) (hb : branch ∈ doc.shown)
    (hb' : branch' ∈ doc'.shown) (hp : branch.path = branch'.path)
    (hv : doc.toValue.get? (Macro.wrapper branch) = doc'.toValue.get? (Macro.wrapper branch)) :
    (builtin space attributes settings kindCheck).yield resolve phase doc branch
      = (builtin space attributes settings kindCheck).yield resolve phase doc' branch' := by
  have halike := Macro.looksAlike_of_get? h h' hb hb' hp hv
  -- The two branches have one path, hence one key.
  have hname : branch.fieldName? = branch'.fieldName? := by
    obtain ⟨before, key, u, hpath, hkey, -⟩ := h.get?_of_mem_shown hb
    obtain ⟨before', key', u', hpath', hkey', -⟩ := h'.get?_of_mem_shown hb'
    obtain ⟨-, hk⟩ := List.append_inj' (hpath.symm.trans (hp.trans hpath')) rfl
    rw [Branch.fieldName?, Branch.fieldName?, hkey, hkey', (List.cons.inj hk).1]
  rw [yield, yield, hname]
  cases branch'.fieldName? with
  | none => rfl
  | some key =>
    simp only
    cases hl : (builtin space attributes settings kindCheck).registry.lookup phase key with
    | none => simp only [value_passOver, halike.text]
    | some found =>
      obtain ⟨invocation, factory⟩ := found
      obtain ⟨r, hmem, -, rfl, -⟩ :=
        (Registry.consistsOf_builtin space attributes).mem_of_lookup hl
      simp only
      rw [halike.value_factory hmem]

/-- A modifier that is contributed is bound to the path of its key and asks for what the macro of
the key makes. -/
theorem makes_of_yield (h : doc.InShape) (hb : branch ∈ doc.shown)
    (hy : (builtin space attributes settings kindCheck).yield resolve phase doc branch
      = .ok (some m)) :
    m.path = branch.path ∧ ∃ w name invocation factory, m.path = w ++ [.field name] ∧
      (builtin space attributes settings kindCheck).registry.lookup phase name
        = some (invocation, factory) ∧ invocation.definition.phase = phase ∧
      Macro.Makes attributes resolve invocation.definition w name m.instructions := by
  obtain ⟨key, invocation, factory, hkey, hl, hf⟩ := exists_lookup_of_yield hy
  obtain ⟨w, u, hpath, -⟩ := h.get?_of_fieldName? hb hkey
  obtain ⟨r, hmem, hdefinition, rfl, hphase⟩ :=
    (Registry.consistsOf_builtin space attributes).mem_of_lookup hl
  obtain ⟨hbound, hmakes⟩ := Macro.makes_of_builtin hpath hmem hdefinition hf
  exact ⟨hbound, w, key, invocation, r.factory, hbound.trans hpath, hl, hdefinition ▸ hphase,
    hmakes⟩

/-- After a walk, exactly what the branches contribute is pending.  No other branch is at the path,
so nothing has taken the place of what a branch contributes. -/
theorem mem_all_iff (ha : attributes.Ordered)
    (hr : Macro.Expands (builtin space attributes settings kindCheck).registry.Idle resolve)
    (h : doc.InShape)
    (hw : ((builtin space attributes settings kindCheck).walkWith resolve phase doc).value
      = .ok pending) :
    m ∈ pending.all ↔ ∃ branch ∈ doc.shown,
      (builtin space attributes settings kindCheck).yield resolve phase doc branch
        = .ok (some m) := by
  constructor
  · exact fun hm => exists_yield_of_mem_all h hw hm
  · rintro ⟨branch, hb, hy⟩
    have hc := collected_of_walk h (rewriting_builtin ha hr) hw
    obtain ⟨key, invocation, factory, hkey, hl, hf⟩ := exists_lookup_of_yield hy
    -- Something is pending at the path of the branch, and it is what the branch contributes.
    obtain ⟨m', hm', hpath⟩ := hc.complete branch hb key hkey (by simp [hl])
    obtain ⟨branch', hb', hy'⟩ := exists_yield_of_mem_all h hw hm'
    have hpath' : m'.path = branch'.path := (makes_of_yield h hb' hy').1
    have hsame : (builtin space attributes settings kindCheck).yield resolve phase doc branch
        = (builtin space attributes settings kindCheck).yield resolve phase doc branch' :=
      yield_congr h h hb hb' (hpath.symm.trans hpath') rfl
    rw [hy, hy'] at hsame
    obtain rfl := Option.some.inj (Except.ok.inj hsame)
    exact hm'

end

end Evaluator

end Expansion
