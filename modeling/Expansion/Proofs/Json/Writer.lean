import Expansion.Json.Writer

/-!
  The writer writes the compact text.

  Writing a value with `compact` appends exactly its text to what there is and leaves the open
  containers as they are (`serialize_compact`).  The induction is on the value.  Along the parts of
  a container it carries how far that container is, which `Progress.before` tells from whether the
  next part is the first.  The announced length matters in `enter_write_leave`: a container that is
  announced without parts is closed before any part could be written.
-/

namespace Expansion.Json

/-- How far a container is before its next part, the first one or a later one. -/
def Progress.before : (first : Bool) → Progress
  | true => fresh
  | false => started

namespace Writer

/-- Nothing is appended. -/
theorem put_nil (w : Writer) : w.put [] = w := by
  simp [put]

/-- What is appended in two pieces is appended in one. -/
theorem put_put (w : Writer) (before after : List Char) :
    (w.put before).put after = w.put (before ++ after) := by
  simp [put, String.append_assoc]

/-- A comma comes before every part but the first. -/
theorem next_before (text : String) (first : Bool) (outer : List Progress) :
    next ⟨text, .before first :: outer⟩
      = put (if first then [] else [',']) ⟨text, .before false :: outer⟩ := by
  cases first <;> rfl

/-- A container around its parts, which `write` writes as `body`. -/
theorem enter_write_leave {α : Type} {opening closing : Char} {parts : List α} {body : List Char}
    (write : Writer → Except String Writer) (w : Writer)
    (hnone : parts = [] → body = [] ∧ ∀ w, write w = .ok w)
    (hparts : ∀ text, write ⟨text, .before true :: w.containers⟩
      = .ok (put body ⟨text, .before parts.isEmpty :: w.containers⟩)) :
    (write (w.enter opening closing parts.length)).map (leave closing)
      = .ok (w.put (opening :: body ++ [closing])) := by
  cases parts with
  | nil =>
    -- The text is complete when the container is opened; leaving it must not close it again.
    obtain ⟨rfl, hwrite⟩ := hnone rfl
    have hopen : w.enter opening closing 0
        = ⟨(w.put [opening, closing]).text, .closed :: w.containers⟩ := rfl
    rw [List.length_nil, hopen, hwrite]
    show Except.ok ((w.put [opening, closing]).put []) = _
    rw [put_nil]
    rfl
  | cons part rest =>
    have hopen : w.enter opening closing (rest.length + 1)
        = ⟨(w.put [opening]).text, .before true :: w.containers⟩ := rfl
    rw [List.length_cons, hopen, hparts]
    show Except.ok (((w.put [opening]).put body).put [closing]) = _
    rw [put_put, put_put]
    rfl

end Writer

open Writer

mutual

/-- Writing a value appends its compact text. -/
theorem serialize_compact : (v : Value) → (w : Writer) →
    v.serialize compact w = .ok (w.put (encode v))
  | .scalar _, _ => rfl
  | .array items, w => by
    rw [Value.serialize, encode]
    refine enter_write_leave (Value.serializeItems compact items) w ?_ ?_
    · rintro rfl
      exact ⟨rfl, fun _ => rfl⟩
    · intro text
      exact serializeItems_compact items true text w.containers
  | .object fields, w => by
    rw [Value.serialize, encode]
    refine enter_write_leave (Value.serializeFields compact fields) w ?_ ?_
    · rintro rfl
      exact ⟨rfl, fun _ => rfl⟩
    · intro text
      exact serializeFields_compact fields true text w.containers

/-- Writing elements appends their texts, a comma before all but the first. -/
theorem serializeItems_compact : (items : List Value) → (first : Bool) → (text : String) →
    (outer : List Progress) → Value.serializeItems compact items ⟨text, .before first :: outer⟩
      = .ok (put (encodeItems first items) ⟨text, .before (first && items.isEmpty) :: outer⟩)
  | [], first, text, outer => by
    rw [Value.serializeItems, encodeItems, put_nil, List.isEmpty_nil, Bool.and_true]
  | v :: rest, first, text, outer => by
    rw [Value.serializeItems, encodeItems, ← put_put, ← put_put]
    show (v.serialize compact (next ⟨text, .before first :: outer⟩)).bind
      (Value.serializeItems compact rest) = _
    rw [next_before, serialize_compact v]
    show Value.serializeItems compact rest ⟨_, .before false :: outer⟩ = _
    rw [serializeItems_compact rest, List.isEmpty_cons, Bool.and_false, Bool.false_and]
    rfl

/-- Writing fields appends their names and texts, a comma before all but the first. -/
theorem serializeFields_compact : (fields : List (String × Value)) → (first : Bool) →
    (text : String) → (outer : List Progress) →
    Value.serializeFields compact fields ⟨text, .before first :: outer⟩
      = .ok (put (encodeFields first fields) ⟨text, .before (first && fields.isEmpty) :: outer⟩)
  | [], first, text, outer => by
    rw [Value.serializeFields, encodeFields, put_nil, List.isEmpty_nil, Bool.and_true]
  | (name, v) :: rest, first, text, outer => by
    rw [Value.serializeFields, encodeFields, List.append_cons _ ':', List.append_assoc _ _ [':'],
      ← put_put, ← put_put, ← put_put]
    show (v.serialize compact ((next ⟨text, .before first :: outer⟩).put
      (encodeText name ++ [':']))).bind (Value.serializeFields compact rest) = _
    rw [next_before, serialize_compact v]
    show Value.serializeFields compact rest ⟨_, .before false :: outer⟩ = _
    rw [serializeFields_compact rest, List.isEmpty_cons, Bool.and_false, Bool.false_and]
    rfl

end

end Expansion.Json
