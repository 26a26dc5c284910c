import Expansion.Proofs.Macro.Field
import Expansion.Proofs.Macro.Passes
import Expansion.Proofs.Macro.Yield

/-!
  The fields of an object expand apart from each other.

  The names at the root are not in the namespace, and the kind is not checked.  Then every macro key
  is below a field, and what it contributes to a walk depends on that field alone (`yield_only`).
  So a walk of the object succeeds when the walks of its fields on their own do, and the modifiers
  found under a field are those found in the field on its own, in the same order (`inOrder_only`).
  They act on no other field, whatever the order of all of them.  Hence a phase does to the object
  what it does to each field on its own (`Passes.only`, `exists_passes_of_only`), and so do phases
  in a row.
-/

namespace Expansion

/-- The document is the object of the fields. -/
structure Document.IsObject (doc : Document) (fields : Fields Value) : Prop where
  shape : doc.InShape
  value : doc.toValue = .object fields

/-- The fields of a document are in order. -/
theorem Document.IsObject.ordered {doc : Document} {fields : Fields Value}
    (h : doc.IsObject fields) : Fields.Ordered fields := by
  have ho : doc.toValue.Ordered := h.shape.ordered
  rw [h.value] at ho
  exact ho.1

/-- The document of an object is the object. -/
theorem Document.isObject_ofValue {fields : Fields Value} (h : (Value.object fields).Ordered) :
    (ofValue (.object fields)).IsObject fields :=
  ⟨⟨_, Shape.ofValue h⟩, toValue_ofValue h⟩

namespace Evaluator

/-- No field is called by a name of the namespace. -/
def Plain (evaluator : Evaluator) (fields : Fields Value) : Prop :=
  ∀ name, (Fields.find? name fields).isSome →
    evaluator.registry.vocabulary.inSpace name = false

variable {space : String} {attributes : Attributes} {settings : Settings} {resolve : Resolve}
  {phase : Phase} {doc doc' part : Document} {fields : Fields Value} {name : String}
  {branch branch' : Branch} {pending pending' : Pending} {m : Modifier}

/-! ## Branches of a field -/

/-- Every branch is at a field of the object or below it. -/
theorem exists_field_of_mem_shown (hd : doc.IsObject fields) (hb : branch ∈ doc.shown) :
    ∃ name rest, branch.path = .field name :: rest ∧ (Fields.find? name fields).isSome := by
  obtain ⟨before, key, u, hpath, -, -, hu, -⟩ := hd.shape.get?_of_mem_shown hb
  rw [hd.value] at hu
  have hne : branch.path ≠ [] := by simp [hpath]
  obtain ⟨name, rest, a, hfield, ha⟩ := Value.exists_field_of_get? hne hu
  exact ⟨name, rest, hfield, by simp [ha]⟩

/-- What a field on its own shows, the object shows. -/
theorem exists_shown_of_only (hd : doc.IsObject fields)
    (hp : part.IsObject (Fields.only name fields)) (hb : branch ∈ part.shown) :
    branch.path.head? = some (.field name) ∧ ∃ branch' ∈ doc.shown, branch'.path = branch.path := by
  obtain ⟨other, rest, hpath, hsome⟩ := exists_field_of_mem_shown hp hb
  obtain rfl : other = name := by
    by_cases hne : other = name
    · exact hne
    · rw [Fields.find?_only_of_ne hne] at hsome
      cases hsome
  obtain ⟨-, -, u, -, -, -, hu, -⟩ := hp.shape.get?_of_mem_shown hb
  rw [hp.value, hpath, Value.get?_only_self, ← hpath, ← hd.value] at hu
  refine ⟨by rw [hpath]; rfl, ?_⟩
  exact Document.exists_mem_shown_of_get? (by simp [hpath]) hu

/-- What the object shows of a field, the field on its own shows. -/
theorem exists_shown_only (hd : doc.IsObject fields) (hp : part.IsObject (Fields.only name fields))
    (hb : branch ∈ doc.shown) (hhead : branch.path.head? = some (.field name)) :
    ∃ branch' ∈ part.shown, branch'.path = branch.path := by
  obtain ⟨rest, hpath⟩ : ∃ rest, branch.path = .field name :: rest :=
    List.head?_eq_some_iff.mp hhead
  obtain ⟨-, -, u, -, -, -, hu, -⟩ := hd.shape.get?_of_mem_shown hb
  rw [hd.value, hpath, ← Value.get?_only_self, ← hpath, ← hp.value] at hu
  exact Document.exists_mem_shown_of_get? (by simp [hpath]) hu

/-- A field of the root contributes nothing: its name is not in the namespace. -/
theorem yield_root {evaluator : Evaluator} (hd : doc.InShape) (hb : branch ∈ doc.shown)
    (hpath : branch.path = [.field name])
    (hname : evaluator.registry.vocabulary.inSpace name = false) :
    evaluator.yield resolve phase doc branch = .ok none := by
  obtain ⟨before, key, u, hconcat, hkey, -⟩ := hd.get?_of_mem_shown hb
  have hsplit : [] ++ [Key.field name] = before ++ [key] := hpath.symm.trans hconcat
  obtain ⟨-, hlast⟩ := List.append_inj' hsplit rfl
  have hfield : branch.fieldName? = some name := by
    rw [Branch.fieldName?, hkey, ← (List.cons.inj hlast).1]
    rfl
  exact yield_of_not_inSpace hfield hname

/-- A branch contributes the same in the object and in its field on its own.  At a field of the root
it is nothing in both, and below it what is there is the same value. -/
theorem yield_only (hd : doc.IsObject fields) (hp : part.IsObject (Fields.only name fields))
    (hplain : (builtin space attributes settings false).Plain fields) (hb : branch ∈ doc.shown)
    (hb' : branch' ∈ part.shown) (hpath : branch'.path = branch.path) :
    (builtin space attributes settings false).yield resolve phase part branch'
      = (builtin space attributes settings false).yield resolve phase doc branch := by
  obtain ⟨field, rest, hfield, hsome⟩ := exists_field_of_mem_shown hd hb
  obtain ⟨hhead, -⟩ := exists_shown_of_only hd hp hb'
  obtain rfl : field = name := by
    rw [hpath, hfield] at hhead
    exact Key.field.inj (Option.some.inj hhead)
  cases rest with
  | nil =>
    have hname := hplain field hsome
    rw [yield_root hp.shape hb' (hpath.trans hfield) hname, yield_root hd.shape hb hfield hname]
  | cons key rest =>
    have hwrapper : Macro.wrapper branch' = .field field :: (key :: rest).dropLast := by
      rw [Macro.wrapper, hpath, hfield]
      rfl
    refine yield_congr hp.shape hd.shape hb' hb hpath ?_
    rw [hwrapper, hp.value, hd.value, Value.get?_only_self]

/-! ## Walks -/

/-- When the object is walked to the end, so is each field on its own. -/
theorem exists_walk_only (hd : doc.IsObject fields) (hp : part.IsObject (Fields.only name fields))
    (hplain : (builtin space attributes settings false).Plain fields)
    (hw : ∃ pending, ((builtin space attributes settings false).walkWith resolve phase doc).value
      = .ok pending) :
    ∃ pending, ((builtin space attributes settings false).walkWith resolve phase part).value
      = .ok pending := by
  obtain ⟨-, hall⟩ := (exists_walk_iff hd.shape).mp hw
  refine (exists_walk_iff hp.shape).mpr ⟨value_checkKind_false part, fun branch hb => ?_⟩
  obtain ⟨-, branch', hb', hpath⟩ := exists_shown_of_only hd hp hb
  rw [yield_only hd hp hplain hb' hb hpath.symm]
  exact hall branch' hb'

/-- When every field is walked to the end on its own, so is the object. -/
theorem exists_walk_of_only (hd : doc.IsObject fields)
    (hplain : (builtin space attributes settings false).Plain fields)
    (h : ∀ name, (Fields.find? name fields).isSome → ∃ part : Document,
      part.IsObject (Fields.only name fields) ∧
      ∃ pending, ((builtin space attributes settings false).walkWith resolve phase part).value
        = .ok pending) :
    ∃ pending, ((builtin space attributes settings false).walkWith resolve phase doc).value
      = .ok pending := by
  refine (exists_walk_iff hd.shape).mpr ⟨value_checkKind_false doc, fun branch hb => ?_⟩
  obtain ⟨name, rest, hpath, hsome⟩ := exists_field_of_mem_shown hd hb
  obtain ⟨part, hp, hw⟩ := h name hsome
  obtain ⟨branch', hb', hpath'⟩ := exists_shown_only hd hp hb (by rw [hpath]; rfl)
  rw [← yield_only hd hp hplain hb hb' hpath']
  exact ((exists_walk_iff hp.shape).mp hw).2 branch' hb'

section

variable (ha : attributes.Ordered)
  (hr : Macro.Expands (builtin space attributes settings false).registry.Idle resolve)

include ha hr

/-- The modifiers of a walk do to a document what they do to its value. -/
theorem mirrors_of_walk (hd : doc.InShape)
    (hw : ((builtin space attributes settings false).walkWith resolve phase doc).value
      = .ok pending) :
    Edit.Mirrors pending.applyAll (Modifier.effectEach? pending.inOrder) :=
  Pending.mirrors_applyAll (collected_of_walk hd (rewriting_builtin ha hr) hw).ordered

/-- Every modifier of a walk is under a field of the object.  Modifiers come from branches, and a
branch at a field of the root contributes none. -/
theorem under_of_walk (hd : doc.IsObject fields)
    (hplain : (builtin space attributes settings false).Plain fields)
    (hw : ((builtin space attributes settings false).walkWith resolve phase doc).value
      = .ok pending) (hm : m ∈ pending.inOrder) :
    ∃ name, m.Under name ∧ (Fields.find? name fields).isSome := by
  have hm := Pending.mem_inOrder.mp hm
  obtain ⟨branch, hb, hy⟩ := exists_yield_of_mem_all hd.shape hw hm
  obtain ⟨hpath, -⟩ := makes_of_yield hd.shape hb hy
  obtain ⟨name, rest, hfield, hsome⟩ := exists_field_of_mem_shown hd hb
  have hrewrites := (collected_of_walk hd.shape (rewriting_builtin ha hr) hw).rewrites m hm
  refine ⟨name, hrewrites.under (by rw [hpath, hfield]; rfl) ?_, hsome⟩
  cases rest with
  | nil =>
    rw [yield_root hd.shape hb hfield (hplain name hsome)] at hy
    cases hy
  | cons key rest =>
    rw [hpath, hfield]
    simp

/-- Every modifier of a walk is under some name. -/
theorem exists_under_of_walk (hd : doc.IsObject fields)
    (hplain : (builtin space attributes settings false).Plain fields)
    (hw : ((builtin space attributes settings false).walkWith resolve phase doc).value
      = .ok pending) : ∀ m ∈ pending.inOrder, ∃ name, m.Under name := by
  intro m hm
  obtain ⟨name, hunder, -⟩ := under_of_walk ha hr hd hplain hw hm
  exact ⟨name, hunder⟩

/-- What is under a name is under a field of the object. -/
theorem isSome_of_share (hd : doc.IsObject fields)
    (hplain : (builtin space attributes settings false).Plain fields)
    (hw : ((builtin space attributes settings false).walkWith resolve phase doc).value
      = .ok pending) (hs : Modifier.share name pending.inOrder ≠ []) :
    (Fields.find? name fields).isSome := by
  obtain ⟨m, hm⟩ := List.exists_mem_of_ne_nil _ hs
  obtain ⟨hm, hhead⟩ := Modifier.mem_share.mp hm
  obtain ⟨other, hother, hsome⟩ := under_of_walk ha hr hd hplain hw hm
  obtain rfl : other = name := by
    rw [hother.head] at hhead
    exact Key.field.inj (Option.some.inj hhead)
  exact hsome

/-- The modifiers under a field are those of the field on its own, in the same order.  Both are in
the order of execution, and that order is determined by the modifiers. -/
theorem inOrder_only (hd : doc.IsObject fields) (hp : part.IsObject (Fields.only name fields))
    (hplain : (builtin space attributes settings false).Plain fields)
    (hw : ((builtin space attributes settings false).walkWith resolve phase doc).value
      = .ok pending)
    (hw' : ((builtin space attributes settings false).walkWith resolve phase part).value
      = .ok pending') :
    pending'.inOrder = Modifier.share name pending.inOrder := by
  have hfiled := (collected_of_walk hd.shape (rewriting_builtin ha hr) hw).filed
  have hfiled' := (collected_of_walk hp.shape (rewriting_builtin ha hr) hw').filed
  have ho := ordered_of_walk hd.shape hw
  have ho' := ordered_of_walk hp.shape hw'
  refine Modifier.eq_of_mem_iff pending'.pairwise_inOrder (pending.pairwise_inOrder.filter _)
    (hfiled'.nodup_inOrder ho') ((hfiled.nodup_inOrder ho).filter _) (fun a ha b hb hpath => ?_)
    fun m => ?_
  · exact hfiled'.eq_of_path_eq ho' (Pending.mem_inOrder.mp ha) (Pending.mem_inOrder.mp hb) hpath
  · show m ∈ pending'.inOrder ↔ m ∈ Modifier.share name pending.inOrder
    rw [Modifier.mem_share, Pending.mem_inOrder, Pending.mem_inOrder,
      mem_all_iff ha hr hp.shape hw', mem_all_iff ha hr hd.shape hw]
    -- The modifiers are those of branches, and these correspond.
    constructor
    · rintro ⟨branch, hb, hy⟩
      obtain ⟨hhead, branch', hb', hpath⟩ := exists_shown_of_only hd hp hb
      obtain ⟨hbound, -⟩ := makes_of_yield hp.shape hb hy
      refine ⟨⟨branch', hb', ?_⟩, hbound ▸ hhead⟩
      rw [← yield_only hd hp hplain hb' hb hpath.symm]
      exact hy
    · rintro ⟨⟨branch, hb, hy⟩, hhead⟩
      obtain ⟨hbound, -⟩ := makes_of_yield hd.shape hb hy
      obtain ⟨branch', hb', hpath⟩ := exists_shown_only hd hp hb (hbound ▸ hhead)
      refine ⟨branch', hb', ?_⟩
      rw [yield_only hd hp hplain hb hb' hpath]
      exact hy

/-! ## Phases -/

/-- After the modifiers of a walk the document is an object again.  It has no new fields, and each
is what the modifiers under it make of it on its own. -/
theorem exists_next_of_walk (hd : doc.IsObject fields)
    (hplain : (builtin space attributes settings false).Plain fields)
    (hw : ((builtin space attributes settings false).walkWith resolve phase doc).value
      = .ok pending) (hd' : doc'.InShape)
    (he : Modifier.effectEach? pending.inOrder (.object fields) = some doc'.toValue) :
    ∃ next, doc'.IsObject next ∧ (builtin space attributes settings false).Plain next ∧
      (∀ name, (Fields.find? name next).isSome → (Fields.find? name fields).isSome) ∧
      ∀ name, Modifier.effectEach? (Modifier.share name pending.inOrder)
        (.object (Fields.only name fields)) = some (.object (Fields.only name next)) := by
  obtain ⟨next, hnext, hshare⟩ :=
    Modifier.effectEach?_share (exists_under_of_walk ha hr hd hplain hw) hd.ordered he
  have hnames : ∀ name, (Fields.find? name next).isSome → (Fields.find? name fields).isSome := by
    intro name hsome
    by_cases hs : Modifier.share name pending.inOrder = []
    · -- Nothing is done to the field, so it was there before.
      have hsame := hshare name
      rw [hs] at hsame
      have honly := Value.object.inj (Option.some.inj hsame)
      rwa [← Fields.find?_only_self name fields, honly, Fields.find?_only_self]
    · exact isSome_of_share ha hr hd hplain hw hs
  exact ⟨next, ⟨hd', hnext⟩, fun name hsome => hplain name (hnames name hsome), hnames, hshare⟩

/-- The modifiers found in a field on its own succeed as those under the field do. -/
theorem exists_applyAll_only (hd : doc.IsObject fields)
    (hp : part.IsObject (Fields.only name fields))
    (hplain : (builtin space attributes settings false).Plain fields)
    (hw : ((builtin space attributes settings false).walkWith resolve phase doc).value
      = .ok pending)
    (hw' : ((builtin space attributes settings false).walkWith resolve phase part).value
      = .ok pending') {more : Fields Value}
    (he : Modifier.effectEach? (Modifier.share name pending.inOrder)
      (.object (Fields.only name fields)) = some (.object more)) :
    ∃ count part', (pending'.applyAll part).value = (.ok count, part') ∧ part'.IsObject more := by
  rw [← inOrder_only ha hr hd hp hplain hw hw', ← hp.value] at he
  obtain ⟨count, part', happly, hshape, hvalue⟩ :=
    (mirrors_of_walk ha hr hp.shape hw').of_some hp.shape he
  exact ⟨count, part', happly, hshape, hvalue⟩

/-- What a phase does to an object, it does to each field on its own.  The walks correspond, the
modifiers under the field do there what they do in the object, and the walk after them finds what is
left of the object. -/
theorem Passes.only (hd : doc.IsObject fields)
    (hplain : (builtin space attributes settings false).Plain fields)
    (h : (builtin space attributes settings false).Passes resolve phase doc doc') :
    ∃ next, doc'.IsObject next ∧ (builtin space attributes settings false).Plain next ∧
      (∀ name, (Fields.find? name next).isSome → (Fields.find? name fields).isSome) ∧
      ∀ name part, part.IsObject (Fields.only name fields) →
        ∃ part', part'.IsObject (Fields.only name next) ∧
          (builtin space attributes settings false).Passes resolve phase part part' := by
  obtain ⟨pending, count, hw, happly, hmore⟩ := h.applied
  obtain ⟨hshape, he⟩ := (mirrors_of_walk ha hr hd.shape hw).of_ok hd.shape happly
  rw [hd.value] at he
  obtain ⟨next, hd', hplain', hnames, hshare⟩ := exists_next_of_walk ha hr hd hplain hw hshape he
  refine ⟨next, hd', hplain', hnames, fun name part hp => ?_⟩
  obtain ⟨pending', hw'⟩ := exists_walk_only hd hp hplain ⟨pending, hw⟩
  obtain ⟨count', part', happly', hp'⟩ :=
    exists_applyAll_only ha hr hd hp hplain hw hw' (hshare name)
  refine ⟨part', hp', h.mayWalk, ⟨pending', count', hw', happly', fun hne => hmore ?_⟩,
    exists_walk_only hd' hp' hplain' h.again⟩
  -- What is found in the field is found in the object.
  rw [Pending.isEmpty_eq_false_iff] at hne ⊢
  intro hempty
  rw [inOrder_only ha hr hd hp hplain hw hw', hempty] at hne
  exact hne rfl

/-- What is found under a field of the object is what a phase carries out on the field on its own.
-/
theorem Passes.effect_share (h : (builtin space attributes settings false).Passes resolve phase
      part doc') (hd : doc.IsObject fields) (hp : part.IsObject (Fields.only name fields))
    (hplain : (builtin space attributes settings false).Plain fields)
    (hw : ((builtin space attributes settings false).walkWith resolve phase doc).value
      = .ok pending) :
    doc'.InShape ∧ Modifier.effectEach? (Modifier.share name pending.inOrder)
        (.object (Fields.only name fields)) = some doc'.toValue ∧
      (Modifier.share name pending.inOrder ≠ [] →
        (builtin space attributes settings false).MayWalk 1) := by
  obtain ⟨pending', count, hw', happly, hmore⟩ := h.applied
  have hsame := inOrder_only ha hr hd hp hplain hw hw'
  obtain ⟨hshape, he⟩ := (mirrors_of_walk ha hr hp.shape hw').of_ok hp.shape happly
  rw [hp.value, hsame] at he
  refine ⟨hshape, he, fun hne => hmore ?_⟩
  rw [Pending.isEmpty_eq_false_iff, hsame]
  exact hne

/-- A phase passes on an object when it passes on each field on its own.  Walks and modifiers
succeed field by field, and the second walk may be made since some field needed it, too. -/
theorem exists_passes_of_only (hd : doc.IsObject fields)
    (hplain : (builtin space attributes settings false).Plain fields)
    (hmay : (builtin space attributes settings false).MayWalk 0)
    (h : ∀ name, (Fields.find? name fields).isSome → ∃ part part' : Document,
      part.IsObject (Fields.only name fields) ∧
      (builtin space attributes settings false).Passes resolve phase part part') :
    ∃ doc', (builtin space attributes settings false).Passes resolve phase doc doc' := by
  obtain ⟨pending, hw⟩ := exists_walk_of_only hd hplain fun name hsome => by
    obtain ⟨part, part', hp, hpass⟩ := h name hsome
    obtain ⟨pending', -, hw', -⟩ := hpass.applied
    exact ⟨part, hp, pending', hw'⟩
  -- The modifiers under each field succeed, so all of them do in the order in which they are mixed.
  have hunder := exists_under_of_walk ha hr hd hplain hw
  obtain ⟨v, hv⟩ := Modifier.exists_effectEach? hunder hd.ordered fun name hs => by
    obtain ⟨part, part', hp, hpass⟩ := h name (isSome_of_share ha hr hd hplain hw hs)
    obtain ⟨-, he, -⟩ := hpass.effect_share ha hr hd hp hplain hw
    exact ⟨_, he⟩
  have heffect := hv
  rw [← hd.value] at heffect
  obtain ⟨count, doc', happly, hshape, rfl⟩ :=
    (mirrors_of_walk ha hr hd.shape hw).of_some hd.shape heffect
  obtain ⟨next, hd', hplain', hnames, hshare⟩ := exists_next_of_walk ha hr hd hplain hw hshape hv
  refine ⟨doc', hmay, ⟨pending, count, hw, happly, fun hne => ?_⟩,
    exists_walk_of_only hd' hplain' fun name hsome => ?_⟩
  · -- What is found in the object is found in a field.
    obtain ⟨m, hm⟩ := List.exists_mem_of_ne_nil _ (Pending.isEmpty_eq_false_iff.mp hne)
    obtain ⟨name, hname, hsome⟩ := under_of_walk ha hr hd hplain hw hm
    obtain ⟨part, part', hp, hpass⟩ := h name hsome
    obtain ⟨-, -, hmore⟩ := hpass.effect_share ha hr hd hp hplain hw
    exact hmore (List.ne_nil_of_mem (Modifier.mem_share.mpr ⟨hm, hname.head⟩))
  · obtain ⟨part, part', hp, hpass⟩ := h name (hnames name hsome)
    obtain ⟨hshape', he, -⟩ := hpass.effect_share ha hr hd hp hplain hw
    exact ⟨part', ⟨hshape', Option.some.inj (he.symm.trans (hshare name))⟩, hpass.again⟩

/-- What phases do to an object, they do to each field on its own.  By induction on the phases, with
the fields that the first one leaves. -/
theorem PassesAll.only {phases : List Phase} (hd : doc.IsObject fields)
    (hplain : (builtin space attributes settings false).Plain fields)
    (h : (builtin space attributes settings false).PassesAll resolve phases doc doc') :
    ∃ last, doc'.IsObject last ∧
      (∀ name, (Fields.find? name last).isSome → (Fields.find? name fields).isSome) ∧
      ∀ name part, part.IsObject (Fields.only name fields) →
        ∃ part', part'.IsObject (Fields.only name last) ∧
          (builtin space attributes settings false).PassesAll resolve phases part part' := by
  induction h generalizing fields with
  | nil => exact ⟨fields, hd, fun name hsome => hsome, fun name part hp => ⟨part, hp, .nil⟩⟩
  | cons hfirst hrest ih =>
    obtain ⟨next, hd', hplain', hnames, hparts⟩ := hfirst.only ha hr hd hplain
    obtain ⟨last, hlast, hnames', hparts'⟩ := ih hd' hplain'
    refine ⟨last, hlast, fun name hsome => hnames name (hnames' name hsome), fun name part hp => ?_⟩
    obtain ⟨part', hp', hpass⟩ := hparts name part hp
    obtain ⟨part'', hp'', hpasses⟩ := hparts' name part' hp'
    exact ⟨part'', hp'', .cons hpass hpasses⟩

/-- Phases pass on an object when they pass on each field on its own.  By induction on the phases.
What the first one leaves of the object consists of what it leaves of each field. -/
theorem exists_passesAll_of_only {phases : List Phase} (hd : doc.IsObject fields)
    (hplain : (builtin space attributes settings false).Plain fields)
    (hmay : (builtin space attributes settings false).MayWalk 0)
    (h : ∀ name, (Fields.find? name fields).isSome → ∃ part part' : Document,
      part.IsObject (Fields.only name fields) ∧
      (builtin space attributes settings false).PassesAll resolve phases part part') :
    ∃ doc', (builtin space attributes settings false).PassesAll resolve phases doc doc' := by
  induction phases generalizing doc fields with
  | nil => exact ⟨doc, .nil⟩
  | cons phase rest ih =>
    obtain ⟨doc', hpass⟩ := exists_passes_of_only ha hr hd hplain hmay fun name hsome => by
      obtain ⟨part, last, hp, hpasses⟩ := h name hsome
      cases hpasses with
      | cons hfirst hrest => exact ⟨part, _, hp, hfirst⟩
    obtain ⟨next, hd', hplain', hnames, hparts⟩ := hpass.only ha hr hd hplain
    obtain ⟨last, hlast⟩ := ih hd' hplain' fun name hsome => by
      obtain ⟨part, last, hp, hpasses⟩ := h name (hnames name hsome)
      obtain ⟨part', hp', hpass'⟩ := hparts name part hp
      cases hpasses with
      | cons hfirst hrest =>
        -- The phase leaves one document of the field, and it is the field of what is left.
        obtain rfl := hpass'.unique hfirst
        exact ⟨part', last, hp', hrest⟩
    exact ⟨last, .cons hpass hlast⟩

end

/-! ## Documents -/

/-- The only field of an object is the field on its own. -/
theorem isObject_of_mem (ho : (Value.object fields).Ordered) {entry : String × Value}
    (he : entry ∈ fields) :
    (Document.ofValue (.object [entry])).IsObject (Fields.only entry.1 fields) := by
  have hentry : (Value.object [entry]).Ordered :=
    ⟨List.pairwise_singleton _ _, Value.orderedFields_iff.mp ho.2 entry he, trivial⟩
  rw [ho.1.only_of_mem he]
  exact Document.isObject_ofValue hentry

section

variable (ha : attributes.Ordered) (ho : (Value.object fields).Ordered)
  (hplain : (builtin space attributes settings false).Plain fields)

include ha ho hplain

/-- What an object expands to is an object without new fields, and each field on its own expands to
its part of it.  This is the statement about phases, for documents that are made of values. -/
theorem evaluate_only {w : Value}
    (hw : ((builtin space attributes settings false).evaluate
      (Document.ofValue (.object fields))).value = .ok w) :
    ∃ last : Fields Value, w = .object last ∧ Fields.Ordered last ∧
      (∀ name, (Fields.find? name last).isSome → (Fields.find? name fields).isSome) ∧
      ∀ entry ∈ fields, ((builtin space attributes settings false).evaluate
        (Document.ofValue (.object [entry]))).value = .ok (.object (Fields.only entry.1 last)) := by
  have hev : (builtin space attributes settings false).Rewriting
      (builtin space attributes settings false).resolveFully := rewriting_resolve ha _
  have hd := Document.isObject_ofValue ho
  obtain ⟨doc', hpasses, rfl⟩ := (exists_evaluate_iff hd.shape hev).mp hw
  obtain ⟨last, hlast, hnames, hparts⟩ := hpasses.only ha (expands_resolve ha _) hd hplain
  refine ⟨last, hlast.value, hlast.ordered, hnames, fun entry he => ?_⟩
  have hentry := isObject_of_mem ho he
  obtain ⟨part', hp', hpasses'⟩ := hparts entry.1 _ hentry
  exact (exists_evaluate_iff hentry.shape hev).mpr ⟨part', hpasses', hp'.value⟩

/-- An object that is not empty expands when each field does on its own.  Without a field the limit
of walks could be zero, and then no phase may walk. -/
theorem exists_evaluate_of_only (hne : fields ≠ [])
    (hall : ∀ entry ∈ fields, ∃ w, ((builtin space attributes settings false).evaluate
      (Document.ofValue (.object [entry]))).value = .ok w) :
    ∃ w, ((builtin space attributes settings false).evaluate
      (Document.ofValue (.object fields))).value = .ok w := by
  have hev : (builtin space attributes settings false).Rewriting
      (builtin space attributes settings false).resolveFully := rewriting_resolve ha _
  have hd := Document.isObject_ofValue ho
  have hpart : ∀ entry ∈ fields, ∃ part',
      (builtin space attributes settings false).PassesAll
        (builtin space attributes settings false).resolveFully Phase.all
        (Document.ofValue (.object [entry])) part' := by
    intro entry he
    obtain ⟨w, hw⟩ := hall entry he
    obtain ⟨part', hpasses, -⟩ := (exists_evaluate_iff (isObject_of_mem ho he).shape hev).mp hw
    exact ⟨part', hpasses⟩
  -- There is a field, so the limit lets a phase walk.
  have hmay : (builtin space attributes settings false).MayWalk 0 := by
    obtain ⟨entry, he⟩ := List.exists_mem_of_ne_nil fields hne
    obtain ⟨part', hpasses⟩ := hpart entry he
    cases hpasses with
    | cons hfirst hrest => exact hfirst.mayWalk
  obtain ⟨doc', hpasses⟩ := exists_passesAll_of_only ha (expands_resolve ha _) hd hplain hmay
      fun name hsome => by
    obtain ⟨v, hv⟩ := Option.isSome_iff_exists.mp hsome
    have he : (name, v) ∈ fields := Fields.mem_of_find? hv
    obtain ⟨part', hpasses⟩ := hpart (name, v) he
    exact ⟨_, part', isObject_of_mem ho he, hpasses⟩
  exact ⟨doc'.toValue, (exists_evaluate_iff hd.shape hev).mpr ⟨doc', hpasses, rfl⟩⟩

end

/-- Where no name of an object is in the namespace and the kind is not checked, the object expands
when each of its fields does on its own; and then it expands to what they expand to, put together.
A field on its own keeps its name or goes. -/
theorem evaluate_builtin_apart (ha : attributes.Ordered) (hne : fields ≠ [])
    (ho : (Value.object fields).Ordered)
    (hspace : ∀ entry ∈ fields,
      (builtin space attributes settings false).registry.vocabulary.inSpace entry.1 = false) :
    let evaluate (v : Value) :=
      ((builtin space attributes settings false).evaluate (Document.ofValue v)).value
    ((∃ w, evaluate (.object fields) = .ok w) ↔
      ∀ entry ∈ fields, ∃ w, evaluate (.object [entry]) = .ok w) ∧
    ∀ w, evaluate (.object fields) = .ok w →
      ∃ results : String → Fields Value,
        (∀ entry ∈ fields, evaluate (.object [entry]) = .ok (.object (results entry.1)) ∧
          (results entry.1 = [] ∨ ∃ x, results entry.1 = [(entry.1, x)])) ∧
        w = .object (fields.flatMap fun entry => results entry.1) := by
  intro evaluate
  have hplain : (builtin space attributes settings false).Plain fields := by
    intro name hsome
    obtain ⟨v, hv⟩ := Option.isSome_iff_exists.mp hsome
    exact hspace (name, v) (Fields.mem_of_find? hv)
  constructor
  · constructor
    · rintro ⟨w, hw⟩ entry he
      obtain ⟨last, -, -, -, hentries⟩ := evaluate_only ha ho hplain hw
      exact ⟨_, hentries entry he⟩
    · exact exists_evaluate_of_only ha ho hplain hne
  · intro w hw
    obtain ⟨last, rfl, hlast, hnames, hentries⟩ := evaluate_only ha ho hplain hw
    refine ⟨fun name => Fields.only name last, fun entry he => ⟨hentries entry he, ?_⟩, ?_⟩
    · rcases Fields.only_cases entry.1 last with ⟨-, hnone⟩ | ⟨x, -, hx⟩
      · exact Or.inl hnone
      · exact Or.inr ⟨x, hx⟩
    · -- Each result is the part of the last object under its name, and the parts make up the
      -- object.
      show Value.object last = .object (fields.flatMap fun entry => Fields.only entry.1 last)
      rw [hlast.flatMap_only ho.1 hnames]

/-- One field is removed, the other is not concerned: on their own they leave nothing and the field
as it is, and so do they together. -/
theorem evaluate_builtin_apart_of_delete :
    let evaluate (v : Value) := ((builtin "k" [] {} false).evaluate (Document.ofValue v)).value
    let removed : String × Value := ("a", .object [("k.Null.Delete", .string "x")])
    let kept : String × Value := ("b", .array [.object [("c", .null)]])
    evaluate (.object [removed]) = .ok (.object []) ∧
      evaluate (.object [kept]) = .ok (.object [kept]) ∧
      evaluate (.object [removed, kept]) = .ok (.object [kept]) := by
  intro evaluate removed kept
  have hattributes : Attributes.Ordered [] := fun _ he => nomatch he
  have hremoved : removed.2.Ordered := ⟨List.pairwise_singleton _ _, trivial, trivial⟩
  have hkept : kept.2.Ordered := ⟨⟨List.pairwise_singleton _ _, trivial, trivial⟩, trivial⟩
  have ho : (Value.object [removed, kept]).Ordered :=
    ⟨List.pairwise_pair.mpr (by decide), hremoved, hkept, trivial⟩
  have hspace : ∀ entry ∈ [removed, kept],
      (builtin "k" [] {} false).registry.vocabulary.inSpace entry.1 = false := by
    refine List.forall_mem_cons.mpr ⟨?_, List.forall_mem_singleton.mpr ?_⟩
    · decide +kernel
    · decide +kernel
  have hmay : ∀ n, (builtin "k" [] {} false).MayWalk n := fun _ _ hl => nomatch hl
  have hfirst : evaluate (.object [removed]) = .ok (.object []) := by
    have hordered : (Value.object [removed]).Ordered :=
      ⟨List.pairwise_singleton _ _, hremoved, trivial⟩
    obtain ⟨doc', hvalue, hrun⟩ := exists_run_of_forecast .directives []
      [.scalars, .composites, .encoding] 1 (.object []) (by decide)
      (Document.Reachable.ofValue hordered).inShape (rewriting_resolve hattributes 16) rfl (hmay 1)
      rfl rfl (fun _ hp => nomatch hp) (by decide +kernel) trivial true
    rw [← hvalue]
    exact value_evaluate_of_run hrun
  have hsecond : evaluate (.object [kept]) = .ok (.object [kept]) := by decide +kernel
  refine ⟨hfirst, hsecond, ?_⟩
  -- The two fields succeed on their own, so the object does, and its value is their union.
  obtain ⟨hsucceeds, hunion⟩ := evaluate_builtin_apart hattributes (List.cons_ne_nil _ _) ho hspace
  obtain ⟨w, hw⟩ := hsucceeds.mpr (List.forall_mem_cons.mpr
    ⟨⟨_, hfirst⟩, List.forall_mem_singleton.mpr ⟨_, hsecond⟩⟩)
  obtain ⟨results, hresults, rfl⟩ := hunion w hw
  obtain ⟨⟨hnothing, -⟩, hrest⟩ := List.forall_mem_cons.mp hresults
  obtain ⟨hsame, -⟩ := List.forall_mem_singleton.mp hrest
  have hnone : results "a" = [] :=
    Value.object.inj (Except.ok.inj (hnothing.symm.trans hfirst))
  have hone : results "b" = [kept] :=
    Value.object.inj (Except.ok.inj (hsame.symm.trans hsecond))
  have htogether : [removed, kept].flatMap (fun entry => results entry.1) = [kept] := by
    rw [List.flatMap_cons, List.flatMap_singleton, hnone, hone, List.nil_append]
  rw [htogether] at hw
  exact hw

end Evaluator

end Expansion
