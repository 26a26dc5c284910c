import Expansion.Proofs.Value.Field

/-!
  Merging a second time.

  A value absorbs a source when merging the source into it changes nothing.  It then holds every
  part of the source, and absorbs it there (`exists_part?_of_merge_eq`); and a value of the kind of
  the source absorbs it when it absorbs its parts (`merge_eq_of_parts`).  So absorption is shown by
  induction on the parts of the source.  A merge absorbs its source (`merge_merge`): what came from
  the source absorbs itself, and what both sides hold is merged already.

  What a source has below the root is found in the merge, except where the target has a value of
  another kind above it (`isSome_get?_merge_iff`).
-/

namespace Expansion.Value

variable {source target v w x : Value} {key : Key}

/-! ## Values by their parts -/

/-- A part is smaller than its value, which is why an induction on the parts ends. -/
theorem sizeOf_lt_of_part? (h : v.part? key = some x) : sizeOf x < sizeOf v := by
  cases v with
  | scalar s => simp [part?] at h
  | array items =>
    obtain ⟨i, -, h⟩ := Option.bind_eq_some_iff.mp h
    have hlt := List.sizeOf_lt_of_mem (List.mem_of_getElem? h)
    simp only [array.sizeOf_spec]
    omega
  | object fields =>
    obtain ⟨name, -, h⟩ := Option.bind_eq_some_iff.mp h
    have hlt := List.sizeOf_lt_of_mem (Fields.mem_of_find? h)
    simp only [object.sizeOf_spec, Prod.mk.sizeOf_spec] at hlt ⊢
    omega

/-- What holds of a value when it holds of its parts, holds of every value. -/
theorem induction_on_parts {P : Value → Prop}
    (step : ∀ v, (∀ key u, v.part? key = some u → P u) → P v) (v : Value) : P v :=
  step v fun _ u _ => induction_on_parts step u
termination_by v
decreasing_by exact sizeOf_lt_of_part? ‹_›

/-- Containers of one kind are the same when they have the same parts.  The kind is asked for
because an empty array and an empty object have the same parts, namely none. -/
theorem Ordered.ext_part? (hv : v.Ordered) (hw : w.Ordered) (hc : v.kind.isContainer = true)
    (hk : w.kind = v.kind) (hp : ∀ key, v.part? key = w.part? key) : v = w := by
  cases v with
  | scalar s => cases s <;> cases hc
  | array items =>
    cases w with
    | scalar s => cases s <;> cases hk
    | object more => cases hk
    | array more => exact congrArg array (List.ext_getElem? fun i => hp (.index i))
  | object fields =>
    cases w with
    | scalar s => cases s <;> cases hk
    | array more => cases hk
    | object more => exact congrArg object (hv.1.ext hw.1 fun name => hp (.field name))

/-- A key leads into arrays or into objects, not into both. -/
theorem part?_of_kind_ne (hu : v.part? key = some w) (hk : x.kind ≠ v.kind) :
    x.part? key = none := by
  cases v with
  | scalar s => simp [part?] at hu
  | array items =>
    cases x with
    | scalar s => rfl
    | array more => exact absurd rfl hk
    | object more =>
      cases key with
      | index i => rfl
      | field name => simp [part?, Key.index?] at hu
  | object fields =>
    cases x with
    | scalar s => rfl
    | object more => exact absurd rfl hk
    | array more =>
      cases key with
      | index i => simp [part?, Key.name?] at hu
      | field name => rfl

/-! ## Merges that change nothing -/

/-- Values are alike when they are of one kind, of those with parts. -/
theorem alike_iff : (target.kind.isContainer && target.kind == source.kind) = true ↔
    source.kind.isContainer = true ∧ target.kind = source.kind := by
  rw [Bool.and_eq_true, beq_iff_eq]
  exact ⟨fun ⟨hc, hk⟩ => ⟨hk ▸ hc, hk⟩, fun ⟨hc, hk⟩ => ⟨hk ▸ hc, hk⟩⟩

/-- A value that a merge does not change has every part of the source, and absorbs it. -/
theorem exists_part?_of_merge_eq (ho : source.Ordered) (hk : target.kind = source.kind)
    (h : target.merge source = target) (hv : source.part? key = some v) :
    ∃ x, target.part? key = some x ∧ x.merge v = x := by
  have hparts := part?_merge ho (alike_iff.mpr ⟨isContainer_of_part? hv, hk⟩) key
  rw [h, hv] at hparts
  cases hx : target.part? key with
  | none =>
    rw [hx] at hparts
    cases hparts
  | some x =>
    rw [hx] at hparts
    exact ⟨x, rfl, (Option.some.inj hparts).symm⟩

/-- A value of the kind of a container absorbs it when it absorbs its parts. -/
theorem merge_eq_of_parts (ht : target.Ordered) (ho : source.Ordered)
    (hc : source.kind.isContainer = true) (hk : target.kind = source.kind)
    (hparts : ∀ key, mergePart (target.part? key) (source.part? key) = target.part? key) :
    target.merge source = target := by
  refine (ht.merge ho).ext_part? ht ?_ (kind_merge target source).symm fun key => ?_
  · rw [kind_merge, hk, hc]
  · rw [part?_merge ho (alike_iff.mpr ⟨hc, hk⟩), hparts]

/-- Every value absorbs itself, part by part. -/
theorem merge_self (v : Value) (ho : v.Ordered) : v.merge v = v := by
  induction v using induction_on_parts with
  | step v ih =>
    cases hc : v.kind.isContainer with
    | false => exact merge_of_not_alike (by rw [hc, Bool.false_and])
    | true =>
      refine merge_eq_of_parts ho ho hc rfl fun key => ?_
      cases hu : v.part? key with
      | none => rfl
      | some u => exact congrArg some (ih key u hu (ho.part? hu))

/-- A merge absorbs its source.  Under a key of the source there is now its part, which absorbs
itself, or the merge with that of the target, which absorbs it by induction. -/
theorem merge_merge (source : Value) (ho : source.Ordered) {target : Value} (ht : target.Ordered) :
    (target.merge source).merge source = target.merge source := by
  induction source using induction_on_parts generalizing target with
  | step source ih =>
    by_cases halike : (target.kind.isContainer && target.kind == source.kind) = true
    · obtain ⟨hc, hk⟩ := alike_iff.mp halike
      refine merge_eq_of_parts (ht.merge ho) ho hc ((kind_merge ..).trans hk) fun key => ?_
      rw [part?_merge ho halike]
      cases hv : source.part? key with
      | none => cases target.part? key <;> rfl
      | some v =>
        cases hx : target.part? key with
        | none => exact congrArg some (merge_self v (ho.part? hv))
        | some x => exact congrArg some (ih key v hv (ho.part? hv) (ht.part? hx))
    · -- Values that are not alike do not merge, either time.
      rw [Bool.not_eq_true] at halike
      rw [merge_of_not_alike halike, merge_of_not_alike halike]

/-! ## What came from the source -/

/-- Above a path, there is no value of the target of another kind than that of the source. -/
def Admits (target source : Value) (path : Path) : Prop :=
  ∀ before t s, before <+: path → before ≠ path → target.get? before = some t →
    source.get? before = some s → t.kind = s.kind

/-- A path into a part of the source is admitted when the two values are of one kind and the path
behind the key is admitted in the part of the target, if there is one. -/
theorem admits_cons {rest : Path} (hv : source.part? key = some v) :
    target.Admits source (key :: rest) ↔
      target.kind = source.kind ∧ ∀ x, target.part? key = some x → x.Admits v rest := by
  constructor
  · intro h
    refine ⟨h [] target source List.nil_prefix (List.cons_ne_nil key rest).symm rfl rfl,
      fun x hx before t s hpre hne ht hs => ?_⟩
    refine h (key :: before) t s (List.cons_prefix_cons.mpr ⟨rfl, hpre⟩)
      (fun e => hne (List.cons.inj e).2) ?_ ?_
    · rw [get?, hx]
      exact ht
    · rw [get?, hv]
      exact hs
  · rintro ⟨hk, hrest⟩ before t s hpre hne ht hs
    -- The prefix is empty, which is about the kinds, or it starts with the key and goes on in the
    -- parts.
    cases before with
    | nil =>
      obtain rfl := Option.some.inj ht
      obtain rfl := Option.some.inj hs
      exact hk
    | cons k before =>
      obtain ⟨rfl, hbefore⟩ := List.cons_prefix_cons.mp hpre
      obtain ⟨x, hx, ht⟩ := Option.bind_eq_some_iff.mp ht
      obtain ⟨u, hu, hs⟩ := Option.bind_eq_some_iff.mp hs
      obtain rfl : v = u := Option.some.inj (hv.symm.trans hu)
      exact hrest x hx before t s hbefore (fun e => hne (congrArg _ e)) ht hs

/-- What the source has at a path is in the merge, unless the target has a value of another kind
above the path, by induction on the path. -/
theorem isSome_get?_merge_iff {path : Path} (ho : source.Ordered)
    (hs : (source.get? path).isSome) :
    ((target.merge source).get? path).isSome ↔ target.Admits source path := by
  induction path generalizing target source with
  | nil => exact iff_of_true rfl fun before t s hpre hne => absurd (List.prefix_nil.mp hpre) hne
  | cons key rest ih =>
    obtain ⟨c, hc⟩ := Option.isSome_iff_exists.mp hs
    obtain ⟨v, hv, hc⟩ := Option.bind_eq_some_iff.mp hc
    have hrest : (v.get? rest).isSome := by rw [hc]; rfl
    rw [admits_cons hv]
    by_cases hk : target.kind = source.kind
    · have halike := alike_iff.mpr ⟨isContainer_of_part? hv, hk⟩
      rw [and_iff_right hk, get?, part?_merge ho halike, hv]
      cases hx : target.part? key with
      -- The part is the source's own.
      | none => exact iff_of_true hrest fun x hx => (Option.some_ne_none x hx.symm).elim
      | some x =>
        show ((x.merge v).get? rest).isSome ↔ _
        rw [ih (ho.part? hv) hrest]
        exact ⟨fun h y hy => Option.some.inj hy ▸ h, fun h => h x rfl⟩
    · -- The target stays as it is, and no key leads into both kinds.
      have hsame : target.merge source = target :=
        merge_of_not_alike (by rw [beq_false_of_ne hk, Bool.and_false])
      rw [hsame, get?, part?_of_kind_ne hv hk]
      exact iff_of_false Bool.false_ne_true fun h => hk h.1

end Expansion.Value
