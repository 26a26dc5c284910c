import Expansion.Proofs.Value.Keys
import Expansion.Proofs.Value.Merge
import Mathlib.Data.List.Induction

/-!
  What the fields of a value hold.

  `EveryField ok v` says of every field in `v`, at any depth, that its name and what it holds
  satisfy `ok`.  An edit changes the field that it names and every container on the way there.  So
  it keeps the property when `ok` does not look into containers: a name under which a container is
  good is free to hold anything (`Blind`).  Then every container on the way stands under a free
  name, since it stood there before as a container (`EveryField.free_of_get?`).

  This is used for writes, where the last name must be free (`EveryField.write?`), for removals
  (`EveryField.remove?`), and for merges, where the names of the source must be
  (`EveryField.overlay?`).
-/

namespace Expansion.Value

/-- Every field, at any depth, has a name and a value that satisfy `ok`. -/
def EveryField (ok : String → Value → Prop) (v : Value) : Prop :=
  ∀ before name u, v.get? (before ++ [.field name]) = some u → ok name u

/-- A field of the name is good whatever it holds. -/
def Free (ok : String → Value → Prop) (name : String) : Prop := ∀ u, ok name u

/-- What is good of one container is good of anything. -/
def Blind (ok : String → Value → Prop) : Prop :=
  ∀ name u, u.kind.isContainer = true → ok name u → Free ok name

variable {ok : String → Value → Prop} {key : Key} {path : Path} {v v' u x target source : Value}

/-! ## Parts -/

/-- The fields of a part are fields of the value. -/
theorem EveryField.get? (h : v.EveryField ok) (hu : v.get? path = some u) : u.EveryField ok := by
  intro before name x hx
  refine h (path ++ before) name x ?_
  rw [List.append_assoc, get?_append, hu, Option.bind_some, hx]

/-- A part is good under the name that leads to it, and so are the fields in it. -/
theorem EveryField.part? (h : v.EveryField ok) (hu : v.part? key = some u) :
    (∀ name, key = .field name → ok name u) ∧ u.EveryField ok := by
  have hget : v.get? [key] = some u := by
    rw [Value.get?, hu]
    rfl
  refine ⟨?_, h.get? hget⟩
  rintro name rfl
  exact h [] name u hget

/-- A value is good when its parts are, each under its key. -/
theorem everyField_of_part?
    (h : ∀ key u, v.part? key = some u → (∀ name, key = .field name → ok name u) ∧
      u.EveryField ok) : v.EveryField ok := by
  intro before name x hx
  cases before with
  | nil =>
    obtain ⟨u, hu, hx⟩ := Option.bind_eq_some_iff.mp hx
    obtain rfl := Option.some.inj hx
    exact (h _ u hu).1 name rfl
  | cons key rest =>
    obtain ⟨u, hu, hx⟩ := Option.bind_eq_some_iff.mp hx
    exact (h key u hu).2 rest name x hx

/-- A value without parts has no fields. -/
theorem everyField_scalar (s : Scalar) : (scalar s).EveryField ok :=
  everyField_of_part? fun _ _ hu => nomatch hu

/-- An object is good when its fields are. -/
theorem everyField_object {fields : Fields Value}
    (h : ∀ entry ∈ fields, ok entry.1 entry.2 ∧ entry.2.EveryField ok) :
    (object fields).EveryField ok := by
  refine everyField_of_part? fun key u hu => ?_
  obtain ⟨name, hname, hf⟩ := Option.bind_eq_some_iff.mp hu
  obtain ⟨hok, hgood⟩ := h _ (Fields.mem_of_find? hf)
  refine ⟨?_, hgood⟩
  rintro other rfl
  obtain rfl := Option.some.inj hname
  exact hok

/-- A value with free names only is good. -/
theorem EveryKey.everyField {good : String → Prop} (h : v.EveryKey good)
    (hfree : ∀ name, good name → Free ok name) : v.EveryField ok :=
  fun _ name u hu => hfree name (h.of_get? (Option.isSome_iff_exists.mpr ⟨u, hu⟩)) u

/-- A path that leads to a container ends in a free name, if in a name. -/
theorem EveryField.free_of_get? (h : v.EveryField ok) (hb : Blind ok) (hu : v.get? path = some u)
    (hc : u.kind.isContainer = true) (before : Path) (name : String)
    (hp : path = before ++ [.field name]) : Free ok name :=
  hb name u hc (h before name u (hp ▸ hu))

/-! ## Writes and removals -/

/-- Only a container takes a part. -/
theorem isContainer_of_place? (h : v.place? key u = some v') : v.kind.isContainer = true := by
  cases v with
  | scalar s => cases h
  | array items => rfl
  | object fields => rfl

/-- Placing a good part under a good name keeps the property; the nulls that may fill a gap are
elements, and have no names. -/
theorem EveryField.place? (h : v.EveryField ok) (hu : u.EveryField ok)
    (hkey : ∀ name, key = .field name → ok name u) (hp : v.place? key u = some v') :
    v'.EveryField ok := by
  refine everyField_of_part? fun k c hc => ?_
  by_cases hk : k = key
  · subst hk
    obtain rfl := Option.some.inj ((part?_of_place? hp).symm.trans hc)
    exact ⟨hkey, hu⟩
  · rcases part?_of_place?_of_ne hp hk hc with hc | ⟨rfl, hnone⟩
    · exact h.part? hc
    · -- A null that fills a gap is an element.
      refine ⟨?_, everyField_scalar _⟩
      rintro name rfl
      cases hnone

/-- What is written is good when it is good itself and its name is free: the containers on the way
are under free names, since what is there now is a container too.  The induction is on the path from
its end, which is how a write goes back through the containers. -/
theorem EveryField.write? (h : v.EveryField ok) (hb : Blind ok) (hx : x.EveryField ok)
    (hlast : ∀ before name, path = before ++ [.field name] → Free ok name)
    (hw : v.write? path x = some v') : v'.EveryField ok := by
  induction path using List.reverseRecOn generalizing x with
  | nil =>
    obtain rfl := Option.some.inj hw
    exact hx
  | append_singleton before key ih =>
    rw [write?_concat] at hw
    obtain ⟨c, hc, hw⟩ := Option.bind_eq_some_iff.mp hw
    obtain ⟨c', hc', hw⟩ := Option.bind_eq_some_iff.mp hw
    -- The container with the new part, which is then written where the container was.
    have hplaced : c'.EveryField ok :=
      (h.get? hc).place? hx (fun name hkey => hlast before name (hkey ▸ rfl) x) hc'
    exact ih hplaced (h.free_of_get? hb hc (isContainer_of_place? hc')) hw

/-- Dropping a part keeps the property: what is left under a key was under that key before, or was
an element. -/
theorem EveryField.drop? (hv : v.Ordered) (h : v.EveryField ok) (hd : v.drop? key = some v') :
    v'.EveryField ok := by
  refine everyField_of_part? fun k c hc => ?_
  rcases part?_of_drop? hv hd hc with ⟨-, hc⟩ | ⟨i, j, -, rfl, -, hc⟩
  · exact h.part? hc
  · refine ⟨?_, (h.part? hc).2⟩
    rintro name ⟨⟩

/-- A removal keeps the property: it drops a part and writes its container back. -/
theorem EveryField.remove? (hv : v.Ordered) (h : v.EveryField ok) (hb : Blind ok)
    (hr : v.remove? path = some v') : v'.EveryField ok := by
  rcases List.eq_nil_or_concat path with rfl | ⟨before, key, rfl⟩
  · cases hr
  · rw [List.concat_eq_append, remove?_concat] at hr
    obtain ⟨c, hc, hr⟩ := Option.bind_eq_some_iff.mp hr
    obtain ⟨c', hc', hr⟩ := Option.bind_eq_some_iff.mp hr
    have hpart : (c.part? key).isSome := by
      rw [← isSome_drop?, hc']
      rfl
    obtain ⟨u, hu⟩ := Option.isSome_iff_exists.mp hpart
    exact h.write? hb (EveryField.drop? (hv.get? hc) (h.get? hc) hc')
      (h.free_of_get? hb hc (isContainer_of_part? hu)) hr

/-! ## Merges -/

/-- A part of a merge is one of the target, one of the source, or a merge of the two. -/
theorem part?_merge_cases (ho : source.Ordered) (hu : (target.merge source).part? key = some u) :
    target.part? key = some u ∨ source.part? key = some u ∨
      ∃ x y, target.part? key = some x ∧ source.part? key = some y ∧ u = x.merge y := by
  by_cases halike : (target.kind.isContainer && target.kind == source.kind) = true
  · rw [part?_merge ho halike] at hu
    cases ht : target.part? key with
    | none =>
      rw [ht] at hu
      exact Or.inr (Or.inl hu)
    | some x =>
      cases hs : source.part? key with
      | none =>
        rw [ht, hs] at hu
        exact Or.inl hu
      | some y =>
        rw [ht, hs] at hu
        exact Or.inr (Or.inr ⟨x, y, rfl, rfl, (Option.some.inj hu).symm⟩)
  · rw [merge_of_not_alike (Bool.eq_false_iff.mpr halike)] at hu
    exact Or.inl hu

/-- A merge is good when the target is and the names of the source are free, by induction on the
path.  Where both have a part the two are merged in turn; elsewhere the part is that of one of them.
-/
theorem EveryField.merge (h : target.EveryField ok) (ho : source.Ordered)
    (hs : source.EveryField fun name _ => Free ok name) : (target.merge source).EveryField ok := by
  intro before
  induction before generalizing target source with
  | nil =>
    intro name u hu
    obtain ⟨c, hc, hu⟩ := Option.bind_eq_some_iff.mp hu
    obtain rfl := Option.some.inj hu
    rcases part?_merge_cases ho hc with hc | hc | ⟨x, y, -, hy, -⟩
    · exact (h.part? hc).1 name rfl
    · exact (hs.part? hc).1 name rfl c
    · exact (hs.part? hy).1 name rfl c
  | cons key rest ih =>
    intro name u hu
    obtain ⟨c, hc, hu⟩ := Option.bind_eq_some_iff.mp hu
    rcases part?_merge_cases ho hc with hc | hc | ⟨x, y, hx, hy, rfl⟩
    · exact (h.part? hc).2 rest name u hu
    · exact (hs.part? hc).2 rest name u hu u
    · exact ih (h.part? hx).2 (ho.part? hy) (hs.part? hy).2 name u hu

/-- A merge at a path keeps the property when the names of the source and the last name of the path
are free. -/
theorem EveryField.overlay? (h : v.EveryField ok) (hb : Blind ok) (ho : source.Ordered)
    (hs : source.EveryField fun name _ => Free ok name)
    (hlast : ∀ before name, path = before ++ [.field name] → Free ok name)
    (he : overlay? path source v = some v') : v'.EveryField ok := by
  cases hparts : source.hasParts with
  | true =>
    obtain ⟨target, ht, -, hw⟩ := (overlay?_eq_some_iff hparts).mp he
    exact h.write? hb ((h.get? ht).merge ho hs) hlast hw
  | false =>
    rw [Value.overlay?, hparts, if_neg Bool.false_ne_true] at he
    obtain rfl := Option.some.inj he
    exact h

end Expansion.Value
