import Expansion.Proofs.Document.Invariant
import Expansion.Proofs.Document.Mirror

/-!
  Changes that fail leave the document as it is.

  Writes and removals find out whether they can be carried out before they change anything.  What a
  write checks after that never fails: a node that is overwritten, and a container that gets new
  parts, stay in use while slots are released and issued (`InShape.exists_writeAt`,
  `isSome_slot?_alloc`).  To see this, the place of a write is looked at case by case
  (`place_cases`, `placeAt_cases`).

  An overlay changes the document entry by entry, but it can fail at its first entry only: once an
  entry is brought to a container of the kind of the source, so are all that follow
  (`atomic_overlay`).
-/

namespace Expansion

namespace Edit

variable {ε ε' α β : Type}

/-! ## Edits that change all or nothing -/

/-- A failure leaves the document as it is. -/
def Atomic (x : Edit ε α) : Prop :=
  ∀ doc, doc.InShape → ∀ e doc', (x doc).value = (.error e, doc') → doc' = doc

variable {x : Edit ε α}

/-- Errors are passed on with what they mean to the caller. -/
theorem value_mapError_error_iff {f : ε → ε'} {doc doc' : Document} {e : ε'} :
    (Edit.mapError f x doc).value = (.error e, doc') ↔
      ∃ cause, (x doc).value = (.error cause, doc') ∧ e = f cause := by
  rw [value_mapError]
  match (x doc).value with
  | (.ok a, d) =>
    have hok : (Except.ok a : Except ε α).mapError f = .ok a := rfl
    simp [hok]
  | (.error cause, d) =>
    constructor
    · intro h
      obtain ⟨he, rfl⟩ := Prod.mk.inj h
      exact ⟨cause, rfl, (Except.error.inj he).symm⟩
    · rintro ⟨other, hother, rfl⟩
      obtain ⟨he, rfl⟩ := Prod.mk.inj hother
      rw [Except.error.inj he]
      rfl

/-- What an error is called does not matter. -/
theorem Atomic.mapError (h : Atomic x) (f : ε → ε') : Atomic (Edit.mapError f x) := by
  intro doc hd e doc' hx
  obtain ⟨cause, hc, -⟩ := value_mapError_error_iff.mp hx
  exact h doc hd cause doc' hc

/-- An edit whose answer is replaced.  The failure is that of the edit, since giving the other
answer cannot fail. -/
theorem Atomic.bind_pure (h : Atomic x) (b : β) : Atomic (x >>= fun _ => pure b) := by
  intro doc hd e doc' hx
  rw [value_bind] at hx
  match hv : (x doc).value with
  | (.ok a, d) =>
    rw [hv] at hx
    cases hx
  | (.error cause, d) =>
    rw [hv] at hx
    obtain ⟨-, rfl⟩ := Prod.mk.inj hx
    exact h doc hd cause d hv

/-- What is read before the edit does not matter. -/
theorem atomic_current_bind {f : Document → Edit ε β} (h : ∀ d, Atomic (f d)) :
    Atomic (current >>= f) :=
  fun doc => h doc doc

/-- A result that is known before the edit does not matter: if it is an error, nothing is changed.
-/
theorem atomic_lift_bind (result : Except ε α) {f : α → Edit ε β} (h : ∀ a, Atomic (f a)) :
    Atomic (lift result >>= f) := by
  intro doc hd e doc' hx
  rw [value_bind, value_lift] at hx
  cases result with
  | ok a => exact h a doc hd e doc' hx
  | error cause => exact (Prod.mk.inj hx).2.symm

end Edit

/-- The handle of the part under a key. -/
def Content.part? (key : Key) : Content → Option Nat
  | object fields => key.name?.bind fun name => Fields.find? name fields
  | array items => key.index?.bind fun i => items[i]?
  | scalar _ => none

namespace Document

open Edit

variable {doc doc' : Document} {before path : Path} {key : Key} {v : Value} {h k c : Nat}

/-! ## Places of writes -/

/-- A step leads to the part that the container has under the key.  This puts the cases of the
container and of the form of the key into one, so that later proofs need not go through them. -/
theorem step_eq_ok_iff :
    doc.step before key h = .ok k ↔
      ∃ s, doc.slot? h = some s ∧ s.content.part? key = some k := by
  simp only [step, slot, bind, Except.bind]
  cases hs : doc.slot? h with
  | none => simp
  | some s =>
    obtain ⟨p, content⟩ := s
    cases content with
    | scalar s => simp [Content.part?]
    | array items =>
      cases key with
      | field name => simp [Content.part?, Key.index?]
      | index i =>
        cases hi : items[i]? with
        | none => simp [Content.part?, Key.index?, hi]
        | some j => simp [Content.part?, Key.index?, hi, pure, Except.pure]
    | object fields =>
      cases key with
      | index i => simp [Content.part?, Key.name?]
      | field name =>
        cases hf : Fields.find? name fields with
        | none => simp [Content.part?, Key.name?, hf]
        | some j => simp [Content.part?, Key.name?, hf, pure, Except.pure]

/-- A write overwrites the part under the key; without one it adds a field of that name to an
object, or an element at or beyond the end of an array. -/
theorem place_cases {place : Place} (h : doc.place before key c = .ok place) :
    ∃ p content, doc.slot? c = some ⟨p, content⟩ ∧
      ((∃ k, place = .overwrite k ∧ content.part? key = some k) ∨
        (∃ name fields, place = .newField name ∧ content = .object fields ∧ key = .field name ∧
          Fields.find? name fields = none) ∨
        ∃ padding items, place = .newItem padding ∧ content = .array items ∧
          key = .index (items.length + padding)) := by
  simp only [Document.place, bind, Except.bind] at h
  cases hs : doc.slot c with
  | error e => simp [hs] at h
  | ok s =>
    obtain ⟨p, content⟩ := s
    refine ⟨p, content, slot?_of_slot hs, ?_⟩
    simp only [hs] at h
    -- A container takes keys of its own form; any other key, and any key of a scalar, is refused.
    cases content with
    | scalar s => simp only at h; split at h <;> cases h
    | array items =>
      cases key with
      | field name => simp only at h; split at h <;> cases h
      | index i =>
        cases hi : items[i]? with
        | some k =>
          obtain rfl : .overwrite k = place := by simpa [hi, pure, Except.pure] using h
          exact Or.inl ⟨k, rfl, hi⟩
        | none =>
          obtain rfl : .newItem (i - items.length) = place := by
            simpa [hi, pure, Except.pure] using h
          have hle := List.getElem?_eq_none_iff.mp hi
          exact Or.inr (Or.inr ⟨_, items, rfl, rfl, congrArg Key.index (by omega)⟩)
    | object fields =>
      cases key with
      | index i => simp only at h; split at h <;> cases h
      | field name =>
        cases hf : Fields.find? name fields with
        | some k =>
          obtain rfl : .overwrite k = place := by simpa [hf, pure, Except.pure] using h
          exact Or.inl ⟨k, rfl, hf⟩
        | none =>
          obtain rfl : .newField name = place := by simpa [hf, pure, Except.pure] using h
          exact Or.inr (Or.inl ⟨name, fields, rfl, rfl, rfl, hf⟩)

/-- What a step down leads to, a write overwrites. -/
theorem step_of_place (h : doc.place before key c = .ok (.overwrite k)) :
    doc.step before key c = .ok k := by
  obtain ⟨p, content, hs, hcases⟩ := place_cases h
  rcases hcases with ⟨j, hj, hpart⟩ | ⟨_, _, hj, -⟩ | ⟨_, _, hj, -⟩
  · obtain rfl := Place.overwrite.inj hj
    exact step_eq_ok_iff.mpr ⟨_, hs, hpart⟩
  · cases hj
  · cases hj

/-- A write at the root overwrites it; any other goes into the container above the path. -/
theorem placeAt_cases {place : Place} (h : doc.placeAt path = .ok (c, place)) :
    (path = [] ∧ c = doc.top ∧ place = .overwrite c) ∨
      ∃ before key, path = before ++ [key] ∧ doc.get before = .ok c ∧
        doc.place before key c = .ok place := by
  rcases List.eq_nil_or_concat path with rfl | ⟨before, key, rfl⟩
  · obtain ⟨rfl, rfl⟩ := Prod.mk.inj (Except.ok.inj h)
    exact Or.inl ⟨rfl, rfl, rfl⟩
  · rw [List.concat_eq_append] at h ⊢
    simp only [placeAt, List.getLast?_concat, List.dropLast_concat, bind, Except.bind] at h
    cases hg : doc.get before with
    | error e => simp [hg] at h
    | ok d =>
      simp only [hg] at h
      cases hp : doc.place before key d with
      | error e => simp [hp] at h
      | ok found =>
        simp only [hp, pure, Except.pure] at h
        obtain ⟨rfl, rfl⟩ := Prod.mk.inj (Except.ok.inj h)
        exact Or.inr ⟨before, key, rfl, hg, hp⟩

/-- A write goes into the container of the path, and what it overwrites is at the path. -/
theorem get_of_placeAt {place : Place} (h : doc.placeAt path = .ok (c, place)) :
    doc.get path.dropLast = .ok c ∧ ∀ k, place = .overwrite k → doc.get path = .ok k := by
  rcases placeAt_cases h with ⟨rfl, rfl, rfl⟩ | ⟨before, key, rfl, hg, hp⟩
  · exact ⟨rfl, fun k hk => congrArg Except.ok (Place.overwrite.inj hk)⟩
  · rw [List.dropLast_concat]
    refine ⟨hg, fun k hk => ?_⟩
    rw [get_concat, hg]
    exact step_of_place (hk ▸ hp)

/-- What a path leads to is in use. -/
theorem InShape.isSome_slot?_of_get (h : doc.InShape) (hg : doc.get path = .ok k) :
    (doc.slot? k).isSome := by
  obtain ⟨n, hn⟩ := h
  obtain ⟨d, hd, rfl⟩ := hn.exists_at?_of_get hg
  obtain ⟨p, hp⟩ := hn.slot?_of_at? hd
  rw [hp]
  rfl

/-- Overwriting, with an answer. -/
theorem map_overwrite_eq_ok_iff {α : Type} {a b : α} :
    ((doc.overwrite k v).map fun d => (a, d)) = .ok (b, doc') ↔
      a = b ∧ doc.overwrite k v = .ok doc' := by
  rcases doc.overwrite k v with e | d <;> simp [Except.map]

/-- A node in use can be overwritten: it stays in use while its parts are released and those of the
new value are built. -/
theorem InShape.exists_overwrite (h : doc.InShape) (hv : v.Ordered) (hk : (doc.slot? k).isSome) :
    ∃ doc', doc.overwrite k v = .ok doc' := by
  obtain ⟨n, hn⟩ := h
  obtain ⟨slot, hs⟩ := Option.isSome_iff_exists.mp hk
  obtain ⟨p, c, hc, rfl⟩ := hn.exists_at?_of_slot? hs
  obtain ⟨doc', hd, -⟩ := hn.overwrite hc hv
  exact ⟨doc', hd⟩

/-- A write is carried out where there is a place for it. -/
theorem InShape.exists_writeAt (h : doc.InShape) (hv : v.Ordered) {place : Place}
    (hp : doc.placeAt path = .ok (c, place)) :
    ∃ answer, doc.writeAt c v place = .ok answer := by
  cases place with
  | overwrite k =>
    have hk := h.isSome_slot?_of_get ((get_of_placeAt hp).2 k rfl)
    obtain ⟨doc', hd⟩ := h.exists_overwrite hv hk
    exact ⟨(k, doc'), by rw [writeAt, hd]; rfl⟩
  | newField name => exact ⟨_, rfl⟩
  | newItem padding => exact ⟨_, rfl⟩

/-- A container stays in use while parts are built for it.  What is built is put into slots that are
issued after it. -/
theorem isSome_slot?_alloc (hc : (doc.slot? c).isSome) (items : List Value) (v : Value) :
    (((doc.buildItems c items).2.alloc (some c) v).2.slot? c).isSome := by
  obtain ⟨slot, hs⟩ := Option.isSome_iff_exists.mp hc
  have hlt := lt_size_of_slot? hs
  obtain ⟨-, hbuilt, -⟩ := buildItems_spec c items doc hlt
  have hlt' : c < (doc.buildItems c items).2.slots.size := by
    rw [hbuilt.size]
    omega
  obtain ⟨-, hissued, -⟩ := alloc_spec (some c) v (doc.buildItems c items).2
    fun p hp => Option.some.inj hp ▸ hlt'
  rw [hissued.old c hlt', hbuilt.old c hlt, hs]
  rfl

/-! ## Changes -/

/-- A single change hands back the document that it was given when it fails. -/
theorem atomic_change {ε α : Type} (f : Document → Except ε (α × Document)) :
    Atomic (change f) := by
  intro doc _ e doc' hx
  rw [value_change] at hx
  match hf : f doc with
  | .ok (a, d) =>
    rw [hf] at hx
    cases hx
  | .error cause =>
    rw [hf] at hx
    exact (Prod.mk.inj hx).2.symm

/-- A write by path hands it back too. -/
theorem atomic_set (path : Path) (v : Value) : Atomic (set path v) := by
  intro doc _ e doc' hx
  rw [value_set] at hx
  match hw : doc.write path v with
  | .ok (k, d) =>
    rw [hw] at hx
    cases hx
  | .error cause =>
    rw [hw] at hx
    exact (Prod.mk.inj hx).2.symm

/-- An overlay fails before it changes anything, or not at all.  Whether it fails is decided by the
value at the path alone, before the first entry is written. -/
theorem atomic_overlay (path : Path) {source : Value} (ho : source.Ordered) :
    Atomic (overlay path source) := by
  intro doc h e doc' hx
  cases hparts : source.hasParts with
  | false =>
    rw [overlay_of_not_hasParts hparts] at hx
    cases hx
  | true =>
    by_cases halike : ∃ target, doc.toValue.get? path = some target ∧ target.kind = source.kind
    · -- On a value of the same kind it does not fail.
      obtain ⟨target, ht, hk⟩ := halike
      obtain ⟨d, hd, -⟩ := overlay_of_get? source ho path h ht hk
      rw [hd] at hx
      cases hx
    · obtain ⟨cause, hc⟩ := overlay_of_not_alike h ho hparts fun target ht hk =>
        halike ⟨target, ht, hk⟩
      rw [hc] at hx
      exact (Prod.mk.inj hx).2.symm

/-- No change leaves a trace where it fails.  The operations that only drop the answer of another
one fail as that one does. -/
theorem Change.atomic {c : Change} (hc : c.Ordered) : Atomic c.apply := by
  cases c with
  | set path v => exact (atomic_set path v).bind_pure ()
  | setNode h v => exact atomic_change _
  | delete path => exact (atomic_change fun doc => doc.remove path).bind_pure ()
  | deleteNode h => exact (atomic_change fun doc => doc.removeNode h).bind_pure ()
  | overlay path source => exact atomic_overlay path hc

end Document

end Expansion
