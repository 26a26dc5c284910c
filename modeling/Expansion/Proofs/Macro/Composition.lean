import Expansion.Proofs.Macro.InsideOut
import Expansion.Proofs.Macro.Resources
import Expansion.Proofs.Value.Keeping

/-!
  The third phase composes objects.

  Of the keys of an object a join runs before every lookup, since the names of the types are ordered
  that way (`lt_of_fragment_of_join`).  It leaves a text, on which no other key can run; so an
  object with a join has no other key of the phase, or the phase fails (`settles_of_join`).

  Lookups run in descending order.  Each takes its own field out and merges its fragment in; the
  fragment was expanded apart and holds no key, so it is as if all were taken out first
  (`settles_of_fragments`).  What is in place wins: the fields beside the lookups before every
  fragment, and the fragment of a greater key before that of a lesser one.
-/

namespace Expansion

namespace Registry

/-- The expanded value of the attribute that a lookup of composites names. -/
def fragment? (registry : Registry) (attributes : Attributes) (resolve : Evaluator.Resolve)
    (entry : String × Value) : Option Value :=
  (registry.lookup .composites entry.1).bind fun found =>
    if found.1.definition.returnType.isContainer then
      (found.1.definition.named? attributes entry.2).bind fun y => (resolve y).value.toOption
    else none

/-- An object with a join becomes the text of its elements, and one with no field but a lookup its
fragment.  Any other object loses its lookups, and their fragments are merged into the fields that
are left, from the greatest key to the least. -/
def composed (registry : Registry) (attributes : Attributes) (resolve : Evaluator.Resolve)
    (fields rewritten : Fields Value) : Value :=
  match rewritten.findSome? (registry.text? .composites) with
  | some text => text
  | none =>
    let fragments := fields.reverse.filterMap (registry.fragment? attributes resolve)
    if fields.length = 1 then fragments.headD (.object rewritten)
    else fragments.foldl Value.merge
      (.object (rewritten.filter fun entry => (registry.lookup .composites entry.1).isNone))

/-! ## Joins and lookups -/

section

variable {space : String} {attributes : Attributes} {resolve : Evaluator.Resolve}
  {fields : Fields Value} {entry other : String × Value} {z : Value}
  {settle : Fields Value → Fields Value → Value}

/-- The macros of the third phase are the join and the lookups of composites. -/
theorem lookup_composites {key : String} {found : Macro.Invocation × Macro.Factory}
    (hl : (builtin space attributes).lookup .composites key = some found) :
    (found.1.definition.form? = some .join ∧ found.1.definition.returnType = .string) ∨
      found.1.definition.form? = none ∧ found.1.definition.returnType.isContainer = true := by
  obtain ⟨hd, hp⟩ := Macro.definition_of_lookup hl
  have hall : ∀ d ∈ (Macro.builtins []).map Macro.Registered.definition, d.phase = .composites →
      (d.form? = some .join ∧ d.returnType = .string) ∨
        d.form? = none ∧ d.returnType.isContainer = true := by
    decide
  exact hall _ hd hp

/-- A key has a fragment when it is a lookup of a composite that names an attribute, and the value
of the attribute expands. -/
theorem fragment?_eq_some_iff :
    (builtin space attributes).fragment? attributes resolve entry = some z ↔
      ∃ found y, (builtin space attributes).lookup .composites entry.1 = some found ∧
        found.1.definition.form? = none ∧ found.1.definition.returnType.isContainer = true ∧
        found.1.definition.named? attributes entry.2 = some y ∧
        (resolve y).value.toOption = some z := by
  rw [fragment?, Option.bind_eq_some_iff]
  constructor
  · rintro ⟨found, hl, hz⟩
    obtain ⟨hcontainer, hz⟩ := Option.ite_none_right_eq_some.mp hz
    obtain ⟨y, hy, hz⟩ := Option.bind_eq_some_iff.mp hz
    rcases lookup_composites hl with ⟨-, htype⟩ | ⟨hform, -⟩
    · rw [htype] at hcontainer
      cases hcontainer
    · exact ⟨found, y, hl, hform, hcontainer, hy, hz⟩
  · rintro ⟨found, y, hl, -, hcontainer, hy, hz⟩
    exact ⟨found, hl, by rw [if_pos hcontainer, hy, Option.bind_some, hz]⟩

/-- A lookup makes no text. -/
theorem form?_of_fragment
    (h : (builtin space attributes).fragment? attributes resolve entry = some z) :
    (builtin space attributes).form? .composites entry.1 = none := by
  obtain ⟨found, y, hl, hform, -⟩ := fragment?_eq_some_iff.mp h
  rw [form?, hl]
  exact hform

/-- A key that asks something is a join, or a lookup with a fragment. -/
theorem join_or_fragment {is : List Instruction}
    (h : (builtin space attributes).asks? attributes resolve .composites fields entry = some is) :
    (builtin space attributes).form? .composites entry.1 = some .join ∨
      ∃ z, (builtin space attributes).fragment? attributes resolve entry = some z := by
  obtain ⟨found, hl, hasks⟩ := Option.bind_eq_some_iff.mp h
  rcases lookup_composites hl with ⟨hform, -⟩ | ⟨hform, hcontainer⟩
  · left
    rw [form?, hl]
    exact hform
  · right
    rw [Macro.Definition.asks?_of_lookup hform] at hasks
    obtain ⟨y, hy, hasks⟩ := Option.bind_eq_some_iff.mp hasks
    rw [if_pos hcontainer] at hasks
    obtain ⟨z, hz, -⟩ := Option.map_eq_some_iff.mp hasks
    exact ⟨z, fragment?_eq_some_iff.mpr ⟨found, y, hl, hform, hcontainer, hy, hz⟩⟩

/-- A lookup puts its fragment in the place of the wrapper, or takes its field out and merges the
fragment in. -/
theorem act?_of_fragment
    (h : (builtin space attributes).fragment? attributes resolve entry = some z) (c : Value) :
    (builtin space attributes).act? attributes resolve .composites fields c entry =
      if fields.length = 1 then some z
      else (c.drop? (.field entry.1)).bind (Value.overlay? [] z) := by
  obtain ⟨found, y, hl, hform, hcontainer, hy, hz⟩ := fragment?_eq_some_iff.mp h
  rw [act?, asks?, hl, Option.bind_some, Macro.Definition.asks?_of_lookup hform, hy,
    Option.bind_some, if_pos hcontainer, hz, Option.map_some, Option.bind_some]
  by_cases hone : fields.length = 1
  · rw [if_pos hone, if_pos hone]
    rfl
  · rw [if_neg hone, if_neg hone]
    -- The two instructions are below the wrapper, so they act on its value.
    show (c.drop? (.field entry.1)).bind (fun v => (Value.overlay? [] z v).bind some) = _
    simp only [Option.bind_fun_some]

/-- Fragments are in order, and call no macro. -/
theorem plain_of_fragment (ha : attributes.Ordered)
    (hr : Macro.Expands (builtin space attributes).Idle resolve)
    (h : (builtin space attributes).fragment? attributes resolve entry = some z) :
    z.Ordered ∧ z.EveryKey (builtin space attributes).Idle := by
  obtain ⟨found, y, -, -, -, hy, hz⟩ := fragment?_eq_some_iff.mp h
  obtain ⟨s, -, hlookup⟩ := Macro.Definition.named?_eq_some_iff.mp hy
  refine hr y z (Macro.ordered_of_lookup ha hlookup).1 ?_
  cases hv : (resolve y).value with
  | error e =>
    rw [hv] at hz
    cases hz
  | ok x =>
    rw [hv] at hz
    exact congrArg Except.ok (Option.some.inj hz)

/-- A fragment has no field of a name that calls a macro.  So a merged fragment never brings back a
field that was taken out. -/
theorem part?_fragment (ha : attributes.Ordered)
    (hr : Macro.Expands (builtin space attributes).Idle resolve)
    (h : (builtin space attributes).fragment? attributes resolve entry = some z) {phase : Phase}
    {name : String} (hl : ((builtin space attributes).lookup phase name).isSome) :
    z.part? (.field name) = none := by
  cases hpart : z.part? (.field name) with
  | none => rfl
  | some u =>
    have hidle := ((plain_of_fragment ha hr h).2.part? hpart).1 name rfl phase
    rw [hidle] at hl
    cases hl

/-! ## Joins come first -/

/-- The text of a call starts with the name of its type, after the namespace. -/
theorem exists_text_of_lookup {phase : Phase} {key : String}
    {found : Macro.Invocation × Macro.Factory}
    (hl : (builtin space attributes).lookup phase key = some found) :
    ∃ rest, key.toList = space.toList ++ '.' :: (found.1.definition.returnType.name.toList
      ++ '.' :: rest) := by
  rw [← value_withBuiltins] at hl
  obtain ⟨call, -, rfl, -, hinvocation⟩ :=
    (exists_lookup_defineAll_iff (open_notMem_verb attributes)).mp ⟨found.2, hl⟩
  exact ⟨_, by rw [Macro.toList_text, hinvocation]⟩

/-- The key of a lookup is less than that of a join.  Both keys start with the namespace, and then
with the names of their types: those of the containers are less than that of the text. -/
theorem lt_of_fragment_of_join
    (h : (builtin space attributes).fragment? attributes resolve entry = some z)
    (hj : (builtin space attributes).form? .composites other.1 = some .join) :
    entry.1 < other.1 := by
  obtain ⟨found, y, hl, -, hcontainer, -⟩ := fragment?_eq_some_iff.mp h
  obtain ⟨found', hl', hform⟩ := Option.bind_eq_some_iff.mp hj
  have hstring : found'.1.definition.returnType = .string := by
    rcases lookup_composites hl' with ⟨-, htype⟩ | ⟨hnone, -⟩
    · exact htype
    · rw [hform] at hnone
      cases hnone
  obtain ⟨rest, htext⟩ := exists_text_of_lookup hl
  obtain ⟨rest', htext'⟩ := exists_text_of_lookup hl'
  rw [hstring] at htext'
  rw [String.lt_iff, htext, htext']
  refine List.append_left_lt (List.cons_lt_cons_iff.mpr (Or.inr ⟨rfl, ?_⟩))
  -- After the namespace the names of the types decide, by their first letters.
  cases htype : found.1.definition.returnType with
  | array => exact List.cons_lt_cons_iff.mpr (Or.inl (by decide))
  | object => exact List.cons_lt_cons_iff.mpr (Or.inl (by decide))
  | _ =>
    rw [htype] at hcontainer
    cases hcontainer

/-! ## The keys of one object -/

/-- A join settles its object or fails, and fails if there is another key.  A second key would find
a text in the place of the object: a join has no field to read there, and a lookup none to take out.
-/
theorem settles_of_join {rest : Fields Value} (ho : Fields.Ordered fields)
    (hturns : (builtin space attributes).turns .composites fields = entry :: rest)
    (hjoin : (builtin space attributes).form? .composites entry.1 = some .join)
    (hrest : ∀ entry ∈ rest, (builtin space attributes).form? .composites entry.1 = some .join ∨
      ∃ z, (builtin space attributes).fragment? attributes resolve entry = some z) :
    (builtin space attributes).Settles attributes resolve .composites
      ((builtin space attributes).composed attributes resolve) fields := by
  have hmem : entry ∈ fields := (mem_turns.mp (hturns ▸ List.mem_cons_self)).1
  rw [Settles, runKeys?, hturns, List.foldlM_cons, act?_rewritten_of_form ho hmem hjoin]
  cases htext : (builtin space attributes).text? .composites
      (entry.1, entry.2.rewrite ((builtin space attributes).composed attributes resolve)) with
  | none => exact Or.inl rfl
  | some text =>
    cases rest with
    -- The join is alone, and its text is the first among the rewritten fields.
    | nil =>
      right
      have hfirst : (Value.rewriteFields ((builtin space attributes).composed attributes resolve)
          fields).findSome? ((builtin space attributes).text? .composites) = some text := by
        rw [findSome?_text?, turns_rewriteFields, hturns]
        simp [htext]
      rw [composed, hfirst]
      rfl
    | cons second rest =>
      left
      obtain ⟨form, -, htext⟩ := Option.bind_eq_some_iff.mp htext
      obtain ⟨s, -, rfl⟩ := Option.map_eq_some_iff.mp htext
      rw [Option.bind_eq_bind, Option.bind_some, List.foldlM_cons]
      have hnone : (builtin space attributes).act? attributes resolve .composites fields
          (.string s) second = none := by
        rcases hrest second List.mem_cons_self with hform | ⟨z, hz⟩
        · exact act?_string_of_form hform s
        · -- Two keys are two fields, so the lookup has its field to take out of a text.
          have hmany : fields.length ≠ 1 := by
            have hle := length_turns_le (builtin space attributes) .composites fields
            rw [hturns, List.length_cons, List.length_cons] at hle
            omega
          rw [act?_of_fragment hz, if_neg hmany]
          rfl
      rw [hnone]
      rfl

/-- The keys that run are enough to find the fragments. -/
theorem filterMap_fragment? (registry : Registry) (attributes : Attributes)
    (resolve : Evaluator.Resolve) (fields : Fields Value) :
    fields.reverse.filterMap (registry.fragment? attributes resolve)
      = (registry.turns .composites fields).filterMap (registry.fragment? attributes resolve) := by
  rw [turns, List.filterMap_reverse, List.filterMap_reverse, List.filterMap_filter]
  refine congrArg List.reverse (List.filterMap_congr fun entry _ => ?_)
  split
  · rfl
  · rename_i hpass
    rw [fragment?, Option.not_isSome_iff_eq_none.mp hpass]
    rfl

/-- What is left of rewritten fields without those of the keys.  The one is how the settled object
is defined, the other how the run of its lookups is told. -/
theorem filter_isNone_eq_keep (registry : Registry) (phase : Phase) (fields : Fields Value) :
    Value.object ((Value.rewriteFields settle fields).filter fun entry =>
        (registry.lookup phase entry.1).isNone)
      = (Value.object (Value.rewriteFields settle fields)).keep fun name =>
        (registry.turns phase fields).all fun entry => name != entry.1 := by
  refine congrArg Value.object (List.filter_congr fun entry he => ?_)
  rw [Value.rewriteFields_eq_map] at he
  obtain ⟨original, hin, rfl⟩ := List.mem_map.mp he
  rw [Bool.eq_iff_iff, Option.isNone_iff_eq_none, List.all_eq_true]
  -- A name calls no macro when it is that of no key that runs: its own field would run.
  constructor
  · intro hnone turn ht
    refine bne_iff_ne.mpr fun heq => ?_
    have hcalls := (mem_turns.mp ht).2
    rw [← heq, hnone] at hcalls
    cases hcalls
  · intro hall
    cases hl : registry.lookup phase original.1 with
    | none => rfl
    | some found =>
      have hturn := mem_turns.mpr ⟨hin, Option.isSome_iff_exists.mpr ⟨found, hl⟩⟩
      exact absurd rfl (bne_iff_ne.mp (hall original hturn))

section

variable {source : String × Value → Value}
  (hsource : ∀ entry ∈ (builtin space attributes).turns .composites fields,
    (builtin space attributes).fragment? attributes resolve entry = some (source entry))

include hsource

/-- Lookups alone make no text. -/
theorem findSome?_text?_of_fragments :
    (Value.rewriteFields settle fields).findSome? ((builtin space attributes).text? .composites)
      = none := by
  rw [findSome?_text?, turns_rewriteFields, List.findSome?_eq_none_iff]
  intro entry he
  obtain ⟨original, hin, rfl⟩ := List.mem_map.mp (List.mem_reverse.mp he)
  rw [text?, form?_of_fragment (hsource original hin)]
  rfl

/-- Lookups beside other fields are taken out one by one, and their fragments merged in.  This is
the row of steps that `Value.foldlM_takeMerge` is about. -/
theorem runKeys?_of_many (hmany : fields.length ≠ 1) (c : Value) :
    (builtin space attributes).runKeys? attributes resolve .composites fields c
      = ((builtin space attributes).turns .composites fields).foldlM
        (Value.takeMerge? source) c := by
  refine foldlM_congr_of_map_eq (f := id) (g := id) rfl (fun entry he other _ heq c => ?_) c
  obtain rfl : entry = other := heq
  rw [act?_of_fragment (hsource entry he), if_neg hmany]
  rfl

/-- What an object with lookups alone is settled by. -/
theorem composed_of_fragments :
    (builtin space attributes).composed attributes resolve fields
        (Value.rewriteFields settle fields)
      = if fields.length = 1 then
          (((builtin space attributes).turns .composites fields).map source).headD
            (.object (Value.rewriteFields settle fields))
        else (((builtin space attributes).turns .composites fields).map source).foldl Value.merge
          (.object ((Value.rewriteFields settle fields).filter fun entry =>
            ((builtin space attributes).lookup .composites entry.1).isNone)) := by
  have hfragments : fields.reverse.filterMap
      ((builtin space attributes).fragment? attributes resolve)
        = ((builtin space attributes).turns .composites fields).map source := by
    rw [filterMap_fragment?, List.filterMap_congr hsource, List.filterMap_eq_map']
  simp only [composed, findSome?_text?_of_fragments hsource, hfragments]

/-- Lookups alone settle their object or fail.  In an object with one field the fragment takes the
place of the object; in any other one the fields of the lookups go and the fragments are merged in.
-/
theorem settles_of_fragments (ha : attributes.Ordered)
    (hr : Macro.Expands (builtin space attributes).Idle resolve) (ho : Fields.Ordered fields)
    (hrewritten : (Value.object (Value.rewriteFields
      ((builtin space attributes).composed attributes resolve) fields)).Ordered) :
    (builtin space attributes).Settles attributes resolve .composites
      ((builtin space attributes).composed attributes resolve) fields := by
  rw [Settles, composed_of_fragments hsource]
  by_cases hone : fields.length = 1
  · -- The only field is a lookup, or no key of the phase.
    right
    have hle := length_turns_le (builtin space attributes) .composites fields
    rw [hone] at hle
    rw [runKeys?, if_pos hone]
    rcases hturns : (builtin space attributes).turns .composites fields
      with _ | ⟨entry, _ | ⟨second, rest⟩⟩
    · rfl
    · have hz := hsource entry (hturns ▸ List.mem_cons_self)
      rw [List.foldlM_cons, act?_of_fragment hz, if_pos hone]
      rfl
    · rw [hturns, List.length_cons, List.length_cons] at hle
      omega
  · -- Each fragment has none of the keys that are taken out, so all may be taken out first.
    rw [if_neg hone, filter_isNone_eq_keep, runKeys?_of_many hsource hone]
    refine Value.foldlM_takeMerge hrewritten ?_ ?_ ?_ ?_
    · exact (pairwise_turns ho _ _).imp String.ne_of_lt
    · intro entry he
      exact Option.isSome_iff_exists.mpr
        ⟨_, hrewritten.1.find?_of_mem (Value.mem_rewriteFields (mem_turns.mp he).1)⟩
    · exact fun entry he => (plain_of_fragment ha hr (hsource entry he)).1
    · exact fun entry he other ho => part?_fragment ha hr (hsource entry he) (mem_turns.mp ho).2

end

/-- The keys of an object settle it, when it is rewritten inside, or fail.  Either one of the keys
is a join, which then runs first, or all of them are lookups. -/
theorem settles_composites (ha : attributes.Ordered)
    (hr : Macro.Expands (builtin space attributes).Idle resolve) (ho : Fields.Ordered fields)
    (hrewritten : (Value.object (Value.rewriteFields
      ((builtin space attributes).composed attributes resolve) fields)).Ordered)
    (hasks : ∀ entry ∈ (builtin space attributes).turns .composites fields, ∃ is,
      (builtin space attributes).asks? attributes resolve .composites fields entry = some is) :
    (builtin space attributes).Settles attributes resolve .composites
      ((builtin space attributes).composed attributes resolve) fields := by
  have hkeys : ∀ entry ∈ (builtin space attributes).turns .composites fields,
      (builtin space attributes).form? .composites entry.1 = some .join ∨
        ∃ z, (builtin space attributes).fragment? attributes resolve entry = some z := by
    intro entry he
    obtain ⟨is, h⟩ := hasks entry he
    exact join_or_fragment h
  by_cases hjoin : ∃ entry ∈ (builtin space attributes).turns .composites fields,
      (builtin space attributes).form? .composites entry.1 = some .join
  · -- The keys run in descending order, so a join is the first.
    obtain ⟨joining, hin, hjoin⟩ := hjoin
    cases hturns : (builtin space attributes).turns .composites fields with
    | nil =>
      rw [hturns] at hin
      cases hin
    | cons entry rest =>
      have hpairs := pairwise_turns ho (builtin space attributes) .composites
      rw [hturns] at hin hkeys hpairs
      obtain ⟨hfirst, hrest⟩ := List.forall_mem_cons.mp hkeys
      refine settles_of_join ho hturns ?_ hrest
      rcases List.mem_cons.mp hin with rfl | hin
      · exact hjoin
      · rcases hfirst with hform | ⟨z, hz⟩
        · exact hform
        · have hlt := (List.pairwise_cons.mp hpairs).1 joining hin
          exact absurd hlt (String.lt_asymm (lt_of_fragment_of_join hz hjoin))
  · -- Without a join every key has a fragment.
    have hsource : ∀ entry ∈ (builtin space attributes).turns .composites fields,
        (builtin space attributes).fragment? attributes resolve entry
          = some (((builtin space attributes).fragment? attributes resolve entry).getD .null) := by
      intro entry he
      obtain ⟨z, hz⟩ := (hkeys entry he).resolve_left fun hform => hjoin ⟨entry, he, hform⟩
      rw [hz, Option.getD_some]
    exact settles_of_fragments hsource ha hr ho hrewritten

/-- Objects are settled by values in order.  This is asked of the whole rewriting, since what is
composed inside is looked at from outside. -/
theorem ordered_composed (ha : attributes.Ordered)
    (hr : Macro.Expands (builtin space attributes).Idle resolve) {rewritten : Fields Value}
    (h : (Value.object rewritten).Ordered) :
    ((builtin space attributes).composed attributes resolve fields rewritten).Ordered := by
  have hfragments : ∀ z ∈ fields.reverse.filterMap
      ((builtin space attributes).fragment? attributes resolve), z.Ordered := by
    intro z hz
    obtain ⟨entry, -, hz⟩ := List.mem_filterMap.mp hz
    exact (plain_of_fragment ha hr hz).1
  rw [composed]
  split
  · rename_i text htext
    obtain ⟨entry, -, htext⟩ := List.exists_of_findSome?_eq_some htext
    obtain ⟨form, -, htext⟩ := Option.bind_eq_some_iff.mp htext
    obtain ⟨s, -, rfl⟩ := Option.map_eq_some_iff.mp htext
    trivial
  · -- A text is in order; else it is a fragment, or the fields with the fragments merged in.
    split
    · cases hrow : fields.reverse.filterMap
          ((builtin space attributes).fragment? attributes resolve) with
      | nil => exact h
      | cons z rest => exact hfragments z (hrow ▸ List.mem_cons_self)
    · refine List.foldlRecOn _ _ (motive := Value.Ordered) ?_ fun v hv z hz =>
        hv.merge (hfragments z hz)
      exact h.keep fun name => ((builtin space attributes).lookup .composites name).isNone

end

end Registry

namespace Evaluator

variable {space : String} {attributes : Attributes} {settings : Settings} {kindCheck : Bool}
  {doc doc' : Document} {pending : Pending} {n : Nat}

/-- After a walk the keys of every object settle it, or fail. -/
theorem keysSettle_composites (ha : attributes.Ordered) (h : doc.InShape)
    (hw : ((builtin space attributes settings kindCheck).walk .composites doc).value
      = .ok pending) :
    (Registry.builtin space attributes).KeysSettle attributes
      (builtin space attributes settings kindCheck).resolveFully .composites
      ((Registry.builtin space attributes).composed attributes
        (builtin space attributes settings kindCheck).resolveFully) doc.toValue := by
  intro p fields hfields
  have hexpands : Macro.Expands (Registry.builtin space attributes).Idle
      (builtin space attributes settings kindCheck).resolveFully := expands_resolve ha _
  have hobject : (Value.object fields).Ordered := h.ordered.get? hfields
  exact Registry.settles_composites ha hexpands hobject.1
    (hobject.rewriteFields fun _ _ => Registry.ordered_composed ha hexpands)
    fun entry he => exists_asks h (by decide) hw hfields he

/-- A walk for composites whose modifiers succeed rewrites the document from the bottom up: an
object with a join becomes the text of its elements, one with nothing but a lookup becomes the
fragment, and in any other the lookups give way to their fragments, merged in from the greatest key
to the least. -/
theorem composites_rewrite (ha : attributes.Ordered) (hr : doc.Reachable)
    (hw : ((builtin space attributes settings kindCheck).walk .composites doc).value = .ok pending)
    (hrun : (pending.applyAll doc).value = (.ok n, doc')) :
    doc'.toValue = doc.toValue.rewrite ((Registry.builtin space attributes).composed attributes
      (builtin space attributes settings kindCheck).resolveFully) := by
  have h := hr.inShape
  exact ((applyAll_rewrites h (by decide) (rewriting_resolve ha _) hw
    (keysSettle_composites ha h hw)).1 n doc' hrun).1

/-- A join over an array with a lookup, and two lookups in an object whose own field holds a third.
The fragment of the greater key is merged in first, so it wins over that of the lesser one; and the
field that is in place wins over both. -/
theorem composites_rewrite_nested :
    let inner : Value := .object [("b", .null), ("s", .whole 1)]
    let outer : Value := .object [("own", .object [("b", .boolean true), ("c", .array [])]),
      ("s", .whole 2)]
    let attributes : Attributes := [("i", .inferred inner), ("o", .inferred outer),
      ("r", .inferred (.array [.string "y"]))]
    let evaluator := builtin "k" attributes {} false
    let doc := Document.ofValue (.object
      [("j", .object [("k.String.Join", .array
        [.string "x", .object [("k.Array.Lookup", .string "r")], .whole 1])]),
       ("m", .object
        [("k.Object.Lookup", .string "i"), ("k.Object.Lookup(2)", .string "o"),
         ("own", .object [("k.Object.Lookup", .string "i")])])])
    ∃ pending n doc', (evaluator.walk .composites doc).value = .ok pending ∧
      (pending.applyAll doc).value = (.ok n, doc') ∧
      doc'.toValue = .object
        [("j", .string "x[\"y\"]1"),
         ("m", .object
          [("b", .null),
           ("own", .object [("b", .null), ("c", .array []), ("s", .whole 1)]),
           ("s", .whole 2)])] := by
  intro inner outer attributes evaluator doc
  have ha : attributes.Ordered := by
    refine List.forall_mem_cons.mpr ⟨?_, List.forall_mem_cons.mpr ⟨?_,
      List.forall_mem_singleton.mpr ?_⟩⟩
    all_goals
      simp only [Attribute.inferred, inner, outer, Value.Ordered, Value.OrderedFields,
        Value.OrderedItems, Fields.Ordered]
      decide
  have hr : doc.Reachable := .ofValue (by
    simp only [Value.Ordered, Value.OrderedFields, Value.OrderedItems, Fields.Ordered]
    decide)
  have hsome : (evaluator.walk .composites doc).value.toOption.isSome = true := by decide +kernel
  -- The keys of the objects can be run without the document, and so can the rewriting.
  have hkeys : ∀ fields ∈ doc.objects, ((Registry.builtin "k" attributes).runKeys? attributes
      evaluator.resolveFully .composites fields (.object (Value.rewriteFields
        ((Registry.builtin "k" attributes).composed attributes evaluator.resolveFully)
        fields))).isSome := by
    decide +kernel
  have hrewritten : doc.toValue.rewrite
      ((Registry.builtin "k" attributes).composed attributes evaluator.resolveFully)
      = .object
        [("j", .string "x[\"y\"]1"),
         ("m", .object
          [("b", .null),
           ("own", .object [("b", .null), ("c", .array []), ("s", .whole 1)]),
           ("s", .whole 2)])] := by
    decide +kernel
  obtain ⟨pending, hw⟩ := exists_walk_of_isSome hsome
  obtain ⟨doc', hrun⟩ := (applyAll_rewrites hr.inShape (by decide) (rewriting_resolve ha _) hw
    (keysSettle_composites ha hr.inShape hw)).2 fun path fields hfields =>
      hkeys fields (Document.mem_objects_of_get? hfields)
  exact ⟨pending, _, doc', hw, hrun, (composites_rewrite ha hr hw hrun).trans hrewritten⟩

end Evaluator

end Expansion
