import Expansion.Proofs.Document.Addressing
import Expansion.Proofs.Document.Lifetime
import Expansion.Proofs.Text.Quoted

/-!
  Where a path stops.

  A path that does not resolve stops at the first key that leads nowhere, and the error says what
  the value before that key is (`Value.Refuses`, `InShape.get_eq_error_iff`).  A write asks for
  less: the last key may name a field or an element that is not there yet.  That is the one case in
  which reading says that the whole path is not found, since the text of a path tells the path; in
  every other case a write fails as reading does (`write_of_get_error`).
-/

namespace Expansion

/-- Why a key leads nowhere from a value, which stands at the path `before`. -/
inductive Value.Refuses (before : Path) : Value → Key → DocumentError → Prop
  /-- The object has no field of this name. -/
  | missingField {fields : List (String × Value)} {name : String}
    (h : Fields.find? name fields = none) :
    Refuses before (.object fields) (.field name)
      (.pathNotFound (Path.text (before ++ [.field name])))
  /-- The array ends before this position. -/
  | missingItem {items : List Value} {i : Nat} (h : items.length ≤ i) :
    Refuses before (.array items) (.index i) (.pathNotFound (Path.text (before ++ [.index i])))
  | indexOfObject {fields : List (String × Value)} {i : Nat} :
    Refuses before (.object fields) (.index i) (.typeMismatch before.text .array .object)
  | fieldOfArray {items : List Value} {name : String} :
    Refuses before (.array items) (.field name) (.typeMismatch before.text .object .array)
  | keyOfScalar {s : Scalar} {key : Key} :
    Refuses before (.scalar s) key (.notContainer before.text s.kind)

namespace Document

variable {doc doc' : Document} {before path : Path} {key : Key} {c k : Nat} {x : Value}
  {e : DocumentError} {n : Node} {p : Option Nat}

/-! ## Reading -/

/-- A step fails with the error of the value that it starts from.  The reason and the error
determine each other, case by case of the container and the form of the key. -/
theorem step_eq_error_iff (h : Holds doc p n) :
    doc.step before key n.id = .error e ↔ n.value.Refuses before key e := by
  simp only [step, slot_of_holds h, bind, Except.bind]
  constructor
  · intro hs
    cases n with
    | scalar id s =>
      obtain rfl := Except.error.inj hs
      exact .keyOfScalar
    | array id items =>
      cases key with
      | field name =>
        obtain rfl := Except.error.inj hs
        exact .fieldOfArray
      | index i =>
        simp only [Node.content, List.getElem?_map] at hs
        cases hi : items[i]? with
        | some c => simp [hi, pure, Except.pure] at hs
        | none =>
          rw [hi] at hs
          obtain rfl := Except.error.inj hs
          refine .missingItem ?_
          rw [Node.valueItems_eq_map, List.length_map]
          exact List.getElem?_eq_none_iff.mp hi
    | object id fields =>
      cases key with
      | index i =>
        obtain rfl := Except.error.inj hs
        exact .indexOfObject
      | field name =>
        simp only [Node.content, Fields.find?_map] at hs
        cases hf : Fields.find? name fields with
        | some c => simp [hf, pure, Except.pure] at hs
        | none =>
          rw [hf] at hs
          obtain rfl := Except.error.inj hs
          refine .missingField ?_
          rw [Node.valueFields_eq_map, Fields.find?_map, hf]
          rfl
  · -- The other way, the reason tells what the slot holds.
    intro hr
    cases n with
    | scalar id s =>
      cases hr
      rfl
    | array id items =>
      cases hr with
      | fieldOfArray => rfl
      | missingItem hi =>
        rw [Node.valueItems_eq_map, List.length_map] at hi
        simp only [Node.content, List.getElem?_map, List.getElem?_eq_none hi]
        rfl
    | object id fields =>
      cases hr with
      | indexOfObject => rfl
      | missingField hf =>
        rw [Node.valueFields_eq_map, Fields.find?_map, Option.map_eq_none_iff] at hf
        simp only [Node.content, Fields.find?_map, hf]
        rfl

/-- A path stops at its first key that leads nowhere.  The induction is on the path; `before` is
what was walked before. -/
theorem follow_eq_error_iff (h : Holds doc p n) (before path : Path) :
    doc.follow before path n.id = .error e ↔
      ∃ inner key rest c, path = inner ++ key :: rest ∧ n.at? inner = some c ∧
        c.value.Refuses (before ++ inner) key e := by
  induction path generalizing before p n with
  | nil => simp [follow]
  | cons first others ih =>
    have hstep := step_of_holds h before first
    simp only [follow, bind, Except.bind]
    cases hs : doc.step before first n.id with
    | error cause =>
      rw [hs] at hstep
      have hnone : n.part? first = none := (Option.map_eq_none_iff.mp hstep.symm)
      have hcause := (step_eq_error_iff h).mp hs
      constructor
      · intro he
        obtain rfl := Except.error.inj he
        exact ⟨[], first, others, n, rfl, rfl, by rwa [List.append_nil]⟩
      · rintro ⟨inner, key, rest, c, hpath, hc, hr⟩
        cases inner with
        | nil =>
          obtain ⟨rfl, rfl⟩ := List.cons.inj hpath
          obtain rfl : n = c := Option.some.inj hc
          rw [List.append_nil] at hr
          exact hs.symm.trans ((step_eq_error_iff h).mpr hr)
        | cons a inner =>
          obtain ⟨rfl, -⟩ := List.cons.inj hpath
          rw [Node.at?, hnone] at hc
          cases hc
    | ok k =>
      rw [hs] at hstep
      obtain ⟨d, hd, hid⟩ := Option.map_eq_some_iff.mp hstep.symm
      obtain rfl : d.id = k := hid
      have hd' : Holds doc (some n.id) d := h.kids d (Node.mem_kids_of_part? hd)
      refine (ih hd' (before ++ [first])).trans ?_
      constructor
      · rintro ⟨inner, key, rest, c, rfl, hc, hr⟩
        refine ⟨first :: inner, key, rest, c, rfl, ?_, by rwa [List.append_cons]⟩
        rw [Node.at?, hd]
        exact hc
      · rintro ⟨inner, key, rest, c, hpath, hc, hr⟩
        cases inner with
        | nil =>
          -- The first key leads somewhere, so it is not refused.
          obtain ⟨rfl, rfl⟩ := List.cons.inj hpath
          obtain rfl : n = c := Option.some.inj hc
          rw [List.append_nil, ← step_eq_error_iff h, hs] at hr
          cases hr
        | cons a inner =>
          obtain ⟨rfl, rfl⟩ := List.cons.inj hpath
          rw [Node.at?, hd] at hc
          exact ⟨inner, key, rest, c, rfl, hc, by rwa [← List.append_cons]⟩

/-- Reading by path fails at the first key that leads nowhere. -/
theorem InShape.get_eq_error_iff (hd : doc.InShape) :
    doc.get path = .error e ↔
      ∃ before key rest c, path = before ++ key :: rest ∧ doc.getValue before = .ok c ∧
        c.Refuses before key e := by
  obtain ⟨n, hn⟩ := id hd
  rw [get, ← hn.top, follow_eq_error_iff hn.holds]
  constructor
  · rintro ⟨before, key, rest, c, rfl, hc, hr⟩
    refine ⟨before, key, rest, c.value, rfl, hd.getValue_eq_ok_iff.mpr ?_, hr⟩
    rw [hn.toValue_eq]
    exact Shape.value_get?_of_at? hc
  · rintro ⟨before, key, rest, c, rfl, hc, hr⟩
    rw [hd.getValue_eq_ok_iff, hn.toValue_eq, ← Node.value_at?] at hc
    obtain ⟨d, hat, rfl⟩ := Option.map_eq_some_iff.mp hc
    exact ⟨before, key, rest, d, rfl, hat, hr⟩

/-! ## Writing -/

/-- Where a step fails, so does the search for the place of a write, unless the key is missing.  A
key of the wrong form is refused in the same words, and a key of the right form can only be missing.
-/
theorem place_of_step_error (hs : doc.step before key c = .error e)
    (hne : e ≠ .pathNotFound (Path.text (before ++ [key]))) :
    doc.place before key c = .error e := by
  have hthrow : (do
      let _ ← doc.step before key c
      throw (.pathNotFound (Path.text (before ++ [key]))) : Except DocumentError Place)
      = .error e := by
    rw [hs]
    rfl
  cases hslot : doc.slot c with
  | error cause =>
    simp only [step, place, hslot, bind, Except.bind] at hs ⊢
    rw [Except.error.inj hs]
  | ok s =>
    obtain ⟨p, content⟩ := s
    cases content with
    | scalar s =>
      simp only [place, hslot, bind, Except.bind]
      exact hthrow
    | array items =>
      cases key with
      | field name =>
        simp only [place, hslot, bind, Except.bind]
        exact hthrow
      -- A key of the right form is missing, if anything; then a write would find a place for it.
      | index i =>
        simp only [step, hslot, bind, Except.bind] at hs
        cases hi : items[i]? with
        | some k => simp [hi, pure, Except.pure] at hs
        | none =>
          rw [hi] at hs
          exact absurd (Except.error.inj hs).symm hne
    | object fields =>
      cases key with
      | index i =>
        simp only [place, hslot, bind, Except.bind]
        exact hthrow
      | field name =>
        simp only [step, hslot, bind, Except.bind] at hs
        cases hf : Fields.find? name fields with
        | some k => simp [hf, pure, Except.pure] at hs
        | none =>
          rw [hf] at hs
          exact absurd (Except.error.inj hs).symm hne

/-- A write fails as reading does, unless reading does not find the whole path.  It fails on the way
to the container, or in looking for a place in it. -/
theorem write_of_get_error (hg : doc.get path = .error e) (hne : e ≠ .pathNotFound path.text)
    (x : Value) : doc.write path x = .error e := by
  rcases List.eq_nil_or_concat path with rfl | ⟨before, key, rfl⟩
  · cases hg
  rw [List.concat_eq_append] at hg hne ⊢
  rw [get_concat] at hg
  cases hc : doc.get before with
  | error cause =>
    rw [hc] at hg
    obtain rfl := Except.error.inj hg
    simp [write, placeAt, hc, bind, Except.bind]
  | ok c =>
    rw [hc] at hg
    simp [write, placeAt, hc, bind, Except.bind, place_of_step_error hg hne]

/-- When reading does not find the whole path, it is the last key that is missing, and the container
takes it. -/
theorem InShape.exists_write_of_missing (hd : doc.InShape) (hx : x.Ordered)
    (hg : doc.get path = .error (.pathNotFound path.text)) :
    ∃ k doc', doc.write path x = .ok (k, doc') := by
  obtain ⟨before, key, rest, c, rfl, hc, hr⟩ := hd.get_eq_error_iff.mp hg
  have hvalue := hd.getValue_eq_ok_iff.mp hc
  -- The text of the path tells the path, so nothing comes after the key that is missing.
  have hlast : ∀ {missing}, DocumentError.pathNotFound (Path.text (before ++ key :: rest))
      = .pathNotFound (Path.text missing) → before ++ key :: rest = missing :=
    fun h => Path.text_injective (DocumentError.pathNotFound.inj h)
  rw [hd.isOk_write_iff _ hx, Value.isSome_write?_iff]
  generalize he : DocumentError.pathNotFound (Path.text (before ++ key :: rest)) = e at hr
  cases hr with
  | missingField hf =>
    exact Or.inr ⟨before, _, _, hlast he, hvalue, Or.inl ⟨_, _, rfl, rfl⟩⟩
  | missingItem hi =>
    exact Or.inr ⟨before, _, _, hlast he, hvalue, Or.inr ⟨_, _, rfl, rfl⟩⟩
  | indexOfObject => cases he
  | fieldOfArray => cases he
  | keyOfScalar => cases he

/-- Reading by path fails at the first key that leads nowhere, with the error of the value before
it.  A write answers the handle that the path leads to.  Where reading does not find the whole path,
a write answers a handle that was never issued, and the path leads to it from then on.  In every
other case a write fails as reading does, and changes nothing. -/
theorem Reachable.addressing_errors (hr : doc.Reachable) (path : Path) :
    (∀ e, doc.get path = .error e ↔
      ∃ before key rest c, path = before ++ key :: rest ∧ doc.getValue before = .ok c ∧
        c.Refuses before key e) ∧
    ∀ x : Value, x.Ordered →
      (∀ k, doc.get path = .ok k → ∃ doc', (set path x doc).value = (.ok k, doc')) ∧
      (doc.get path = .error (.pathNotFound path.text) →
        ∃ k doc', (set path x doc).value = (.ok k, doc') ∧ doc.slots.size ≤ k ∧
          doc'.get path = .ok k) ∧
      ∀ e, doc.get path = .error e → e ≠ .pathNotFound path.text →
        (set path x doc).value = (.error e, doc) := by
  have hd := hr.inShape
  refine ⟨fun e => hd.get_eq_error_iff, fun x hx => ⟨fun k hg => ?_, fun hg => ?_, ?_⟩⟩
  · obtain ⟨doc', ho⟩ := hd.exists_overwrite hx (hd.isSome_slot?_of_get hg)
    refine ⟨doc', ?_⟩
    rw [set_of_get hg, value_change, ho]
    rfl
  · -- The write cannot have overwritten a node, since the path led to none.
    obtain ⟨k, doc', hw⟩ := hd.exists_write_of_missing hx hg
    refine ⟨k, doc', value_set_eq_ok_iff.mpr hw, ?_, (hd.leaves_write hx hw).2.1⟩
    rcases write_cases hw with ⟨hk, -⟩ | ⟨before, key, c, -, -, hadded⟩
    · rw [hg] at hk
      cases hk
    · exact hadded.new
  · intro e hg hne
    rw [value_set, write_of_get_error hg hne x]

/-- A name stops at an array, in reading and in writing; a position beyond the end of the array
stops reading only. -/
theorem Reachable.addressing_errors_of_array :
    let doc := Document.ofValue (.object [("a", .array [.null])])
    let refusal := DocumentError.typeMismatch (Path.text [.field "a"]) .object .array
    doc.Reachable ∧ doc.get [.field "a", .field "b", .index 0] = .error refusal ∧
      (set [.field "a", .field "b", .index 0] (.string "x") doc).value = (.error refusal, doc) ∧
      doc.get [.field "a", .index 2]
        = .error (.pathNotFound (Path.text [.field "a", .index 2])) ∧
      ∃ k doc', (set [.field "a", .index 2] (.string "x") doc).value = (.ok k, doc') ∧
        doc.slots.size ≤ k ∧ doc'.get [.field "a", .index 2] = .ok k := by
  intro doc refusal
  have ho : (Value.object [("a", .array [.null])]).Ordered :=
    ⟨List.pairwise_singleton _ _, ⟨trivial, trivial⟩, trivial⟩
  have hr : doc.Reachable := .ofValue ho
  have harray : doc.getValue [.field "a"] = .ok (.array [.null]) :=
    hr.inShape.getValue_eq_ok_iff.mpr (by decide +kernel)
  obtain ⟨hname, hname'⟩ := hr.addressing_errors [.field "a", .field "b", .index 0]
  obtain ⟨hposition, hposition'⟩ := hr.addressing_errors [.field "a", .index 2]
  have hrefused := (hname refusal).mpr
    ⟨[.field "a"], .field "b", [.index 0], _, rfl, harray, .fieldOfArray⟩
  have hmissing := (hposition _).mpr
    ⟨[.field "a"], .index 2, [], _, rfl, harray, .missingItem (by decide)⟩
  exact ⟨hr, hrefused, (hname' (.string "x") trivial).2.2 refusal hrefused (by simp [refusal]),
    hmissing, (hposition' (.string "x") trivial).2.1 hmissing⟩

end Document

end Expansion
