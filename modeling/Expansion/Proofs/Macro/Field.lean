import Expansion.Proofs.Macro.Effect
import Expansion.Proofs.Value.Field

/-!
  Modifiers under the fields of an object.

  A modifier that rewrites a wrapper below the root acts on the field that its path starts with
  (`Modifier.Rewrites.under`).  So modifiers that run one after the other do to each field what
  those under it would do to the field on its own (`Modifier.effectEach?_share`), and they succeed
  when the modifiers under each field do (`Modifier.exists_effectEach?`), however the order mixes
  them.

  Both are by induction on the modifiers.  The first one acts on its field alone
  (`Modifier.Under.effect?_cases`), so to all other fields it is as if it were not there.
-/

namespace Expansion

open Value (ActsOn)

/-! ## One modifier -/

/-- Instructions that act on a field one by one act on it together. -/
theorem Instruction.actsOn_effects? {name : String} {instructions : List Instruction}
    (h : ∀ i ∈ instructions, ActsOn name i.effect?) : ActsOn name (effects? instructions) := by
  induction instructions with
  | nil => exact Value.actsOn_some name
  | cons i rest ih =>
    have hrest := ih fun j hj => h j (List.mem_cons_of_mem i hj)
    exact (h i List.mem_cons_self).bind hrest

/-- Instructions that rewrite a wrapper below the root act on the field that leads to it.  All their
paths start with that field, those that they read and those that they change. -/
theorem Instruction.Rewrite.actsOn {ok : String → Prop} {field name : String} {rest : Path}
    {instructions : List Instruction}
    (h : Rewrite ok (.field field :: rest) name instructions) :
    ActsOn field (effects? instructions) := by
  refine actsOn_effects? fun i hi => ?_
  cases h with
  | @replace x ho hx =>
    obtain rfl := List.mem_singleton.mp hi
    exact Value.actsOn_write field rest x
  | @merge x ho hx =>
    rcases List.mem_cons.mp hi with rfl | hi
    · exact Value.actsOn_remove field (rest ++ [.field name])
    · obtain rfl := List.mem_singleton.mp hi
      exact Value.actsOn_overlay field rest x
  | encode form =>
    obtain rfl := List.mem_singleton.mp hi
    -- What the text is made of is below the same field.
    refine ActsOn.read (rest ++ [.field name]) fun x => ?_
    cases (form.render x).toOption with
    | none => exact Value.actsOn_none field
    | some text => exact Value.actsOn_write field rest (.string text)
  | remove =>
    obtain rfl := List.mem_singleton.mp hi
    exact Value.actsOn_remove field rest

namespace Modifier

/-- The modifier is under the field, and acts on it. -/
structure Under (m : Modifier) (name : String) : Prop where
  head : m.path.head? = some (.field name)
  acts : ActsOn name m.effect?

/-- A modifier below the root is under the field that its path starts with. -/
theorem Rewrites.under {ok : String → Prop} {m : Modifier} (h : m.Rewrites ok) {name : String}
    (hhead : m.path.head? = some (.field name)) (hdeep : 2 ≤ m.path.length) : m.Under name := by
  obtain ⟨w, key, hpath, hr⟩ := h
  cases w with
  | nil =>
    rw [hpath] at hdeep
    simp at hdeep
  | cons first rest =>
    obtain rfl : first = .field name := by
      rw [hpath] at hhead
      exact Option.some.inj hhead
    exact ⟨hhead, hr.actsOn⟩

/-! ## Modifiers in a row -/

/-- The modifiers under a field. -/
def share (name : String) (ms : List Modifier) : List Modifier :=
  ms.filter fun m => m.path.head? == some (.field name)

variable {m : Modifier} {ms : List Modifier} {name other : String} {fields : Fields Value}

/-- The modifiers under a field are those whose paths start with it. -/
theorem mem_share : m ∈ share name ms ↔ m ∈ ms ∧ m.path.head? = some (.field name) := by
  simp [share]

/-- A modifier counts under its field. -/
theorem Under.share_cons_self (h : m.Under name) : share name (m :: ms) = m :: share name ms := by
  simp [share, h.head]

/-- A modifier does not count under another field. -/
theorem Under.share_cons_of_ne (h : m.Under name) (hne : other ≠ name) :
    share other (m :: ms) = share other ms := by
  have hkey : name ≠ other := fun e => hne e.symm
  simp [share, h.head, hkey]

/-- A modifier under a field does to the object what it does to the field on its own, and nothing
to the other fields. -/
theorem Under.effect?_cases (h : m.Under name) (ho : Fields.Ordered fields) :
    (m.effect? (.object fields) = none ∧ m.effect? (.object (Fields.only name fields)) = none) ∨
      ∃ next, Fields.Ordered next ∧ m.effect? (.object fields) = some (.object next) ∧
        m.effect? (.object (Fields.only name fields)) = some (.object (Fields.only name next)) ∧
        ∀ other, other ≠ name → Fields.only other next = Fields.only other fields := by
  obtain ⟨change, hchange⟩ := h.acts
  rw [hchange fields ho, hchange _ (Fields.ordered_only name fields), Fields.find?_only_self]
  cases change (Fields.find? name fields) with
  | none => exact Or.inl ⟨rfl, rfl⟩
  | some found =>
    refine Or.inr ⟨Fields.put name found fields, ho.put name found, rfl, ?_, fun other hne => ?_⟩
    · rw [Option.map_some, Fields.only, Fields.only, Fields.Ordered.nil.put_put,
        ho.find?_put_self]
    · exact Fields.only_congr (Fields.find?_put_of_ne hne found fields)

/-- What modifiers make of an object, those under each field make of the field on its own.  By
induction on the modifiers: the first one acts on its field, and for every other field it might as
well be left out. -/
theorem effectEach?_share (h : ∀ m ∈ ms, ∃ name, m.Under name) (ho : Fields.Ordered fields)
    {v : Value} (hv : effectEach? ms (.object fields) = some v) :
    ∃ next, v = .object next ∧ ∀ name,
      effectEach? (share name ms) (.object (Fields.only name fields))
        = some (.object (Fields.only name next)) := by
  induction ms generalizing fields with
  | nil =>
    obtain rfl : Value.object fields = v := Option.some.inj hv
    exact ⟨fields, rfl, fun name => rfl⟩
  | cons m rest ih =>
    obtain ⟨field, hm⟩ := h m List.mem_cons_self
    have hrest : ∀ m' ∈ rest, ∃ name, m'.Under name := fun m' hm' =>
      h m' (List.mem_cons_of_mem m hm')
    rw [effectEach?] at hv
    rcases hm.effect?_cases ho with ⟨hnone, -⟩ | ⟨next, hnext, hwhole, halone, hothers⟩
    · rw [hnone] at hv
      cases hv
    · rw [hwhole, Option.bind_some] at hv
      obtain ⟨last, rfl, hlast⟩ := ih hrest hnext hv
      refine ⟨last, rfl, fun name => ?_⟩
      -- Under its field the modifier comes first; under the others it has changed nothing.
      by_cases hname : name = field
      · subst hname
        rw [hm.share_cons_self, effectEach?, halone, Option.bind_some]
        exact hlast name
      · rw [hm.share_cons_of_ne hname, ← hothers name hname]
        exact hlast name

/-- Modifiers succeed when those under each field do, on the field on its own.  The modifiers under
one field need nothing of the others, so their order among each other does not matter. -/
theorem exists_effectEach? (h : ∀ m ∈ ms, ∃ name, m.Under name) (ho : Fields.Ordered fields)
    (halone : ∀ name, share name ms ≠ [] → ∃ v,
      effectEach? (share name ms) (.object (Fields.only name fields)) = some v) :
    ∃ v, effectEach? ms (.object fields) = some v := by
  induction ms generalizing fields with
  | nil => exact ⟨.object fields, rfl⟩
  | cons m rest ih =>
    obtain ⟨field, hm⟩ := h m List.mem_cons_self
    have hrest : ∀ m' ∈ rest, ∃ name, m'.Under name := fun m' hm' =>
      h m' (List.mem_cons_of_mem m hm')
    have hfield := halone field (by rw [hm.share_cons_self]; simp)
    rw [hm.share_cons_self, effectEach?] at hfield
    obtain ⟨v, hv⟩ := hfield
    rw [effectEach?]
    rcases hm.effect?_cases ho with ⟨-, hnone⟩ | ⟨next, hnext, hwhole, hself, hothers⟩
    · rw [hnone] at hv
      cases hv
    · rw [hwhole, Option.bind_some]
      refine ih hrest hnext fun name hne => ?_
      by_cases hname : name = field
      · subst hname
        rw [hself, Option.bind_some] at hv
        exact ⟨v, hv⟩
      · -- The first modifier is under another field, so nothing has happened to this one.
        rw [hothers name hname]
        have hothershare : share name (m :: rest) = share name rest := hm.share_cons_of_ne hname
        rw [← hothershare] at hne ⊢
        exact halone name hne

end Modifier

end Expansion
