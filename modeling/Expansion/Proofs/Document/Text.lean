import Expansion.Document.Text
import Expansion.Proofs.Document.Above
import Expansion.Proofs.Document.Mirror
import Expansion.Proofs.Json.Writer
import Expansion.Transform

/-!
  Writing a document is writing its value.

  A tree that the slots hold is written as its value is, whatever it is written to: the same is done
  in the same order, with the same lengths announced (`serializeWithin_of_holds`, by induction on
  the levels).  In a document in shape this says what becomes of every handle, in use or not
  (`InShape.serializeNode_eq`).  The compact text is then that of the value, by what the writer does
  with a value (`Json.serialize_compact`).
-/

namespace Expansion.Document

variable {σ ε : Type} {doc : Document} {S : Serializer σ ε}

/-- When each element is written as its value, the row of them is. -/
theorem foldlM_items (items : List Node) {f : Nat → σ → Except ε σ}
    (h : ∀ c ∈ items, f c.id = c.value.serialize S) (state : σ) :
    (items.map Node.id).foldlM (fun state part => S.element (f part) state) state
      = Value.serializeItems S (Node.valueItems items) state := by
  induction items generalizing state with
  | nil => rfl
  | cons c rest ih =>
    rw [List.map_cons, List.foldlM_cons, h c List.mem_cons_self]
    exact congrArg _ (funext fun state => ih (fun d hd => h d (List.mem_cons_of_mem _ hd)) state)

/-- When the part in each field is written as its value, the row of them is. -/
theorem foldlM_fields (fields : List (String × Node)) {f : Nat → σ → Except ε σ}
    (h : ∀ c ∈ fields.map (·.2), f c.id = c.value.serialize S) (state : σ) :
    (fields.map fun entry => (entry.1, entry.2.id)).foldlM
        (fun state entry => S.field entry.1 (f entry.2) state) state
      = Value.serializeFields S (Node.valueFields fields) state := by
  induction fields generalizing state with
  | nil => rfl
  | cons entry rest ih =>
    rw [List.map_cons, List.foldlM_cons, h entry.2 List.mem_cons_self]
    exact congrArg _ (funext fun state => ih (fun d hd => h d (List.mem_cons_of_mem _ hd)) state)

/-- A tree in the slots is written as its value.  As many levels are needed as there are slots from
the node on. -/
theorem serializeWithin_of_holds {levels : Nat} {parent : Option Nat} {n : Node}
    (h : Holds doc parent n) (hl : doc.slots.size ≤ levels + n.id) :
    doc.serializeWithin S levels n.id = n.value.serialize S := by
  induction levels generalizing parent n with
  | zero =>
    have hlt := lt_size_of_slot? h.slot
    omega
  | succ levels ih =>
    -- Parts are issued after their container, so one level less is enough for them.
    have hkids : ∀ c ∈ n.kids, doc.serializeWithin S levels c.id = c.value.serialize S := by
      intro c hc
      have hlt := h.lt_of_mem_kids hc
      exact ih (h.kids c hc) (by omega)
    funext state
    simp only [serializeWithin, slot_of_holds h]
    cases n with
    | scalar id s => rfl
    | array id items =>
      simp only [Node.content, Node.value, Value.serialize, foldlM_items items hkids]
      rw [List.length_map, Node.valueItems_eq_map, List.length_map]
    | object id fields =>
      simp only [Node.content, Node.value, Value.serialize, foldlM_fields fields hkids]
      rw [List.length_map, Node.valueFields_eq_map, List.length_map]

/-- Writing the node with a handle is writing its value, and fails before anything is written when
the handle is stale. -/
theorem InShape.serializeNode_eq (h : doc.InShape) (S : Serializer σ ε) (k : Nat) (state : σ) :
    doc.serializeNode S k state =
      match doc.value k with
      | .ok v => v.serialize S state
      | .error e => .error (S.unreadable e.message) := by
  cases hs : doc.slot? k with
  | none =>
    rw [value_of_stale hs, serializeNode]
    cases doc.slots.size with
    | zero => rfl
    | succ levels => rw [serializeWithin, slot_of_stale hs]
  | some slot =>
    obtain ⟨n, hn⟩ := h
    obtain ⟨path, c, hc, rfl⟩ := hn.exists_at?_of_slot? hs
    obtain ⟨parent, hp⟩ := hn.holds.at? hc
    rw [value, hn.node_of_at? hc, serializeNode, serializeWithin_of_holds hp (Nat.le_add_right _ _)]
    rfl

/-- The value at the root is that of the document. -/
theorem InShape.value_top (h : doc.InShape) : doc.value doc.top = .ok doc.toValue := by
  obtain ⟨n, hn⟩ := h
  rw [value, hn.node, hn.toValue_eq]
  rfl

/-- Writing a document is writing its value. -/
theorem InShape.serialize_eq (h : doc.InShape) (S : Serializer σ ε) :
    doc.serialize S = doc.toValue.serialize S := by
  funext state
  rw [serialize, h.serializeNode_eq, h.value_top]

/-- The JSON text of a document is that of its value. -/
theorem InShape.toJson_eq (h : doc.InShape) : doc.toJson = .ok (Json.text doc.toValue) := by
  rw [toJson, h.serialize_eq, Json.serialize_compact]
  show Except.ok ("" ++ Json.text doc.toValue) = _
  rw [String.empty_append]

/-- So is the text that a document is shown as. -/
theorem InShape.text_eq (h : doc.InShape) : doc.text = Json.text doc.toValue := by
  rw [text, h.toJson_eq]
  rfl

/-- Writing a reachable document from its slots is writing its value, and so is writing the document
made anew of that value: the serializer, whichever it is, is asked for the same things in the same
order and with the same lengths.  The compact JSON text of a reachable document is therefore always
found, it is the text that its value is rendered as, and the document made of the value has it
too. -/
theorem Reachable.serializes_as_value (hr : doc.Reachable) :
    doc.value doc.top = .ok doc.toValue ∧
    (∀ (σ ε : Type) (S : Serializer σ ε), doc.serialize S = doc.toValue.serialize S ∧
      (Document.ofValue doc.toValue).serialize S = doc.toValue.serialize S) ∧
    doc.toJson = .ok doc.text ∧
    Transform.json.render doc.toValue = .ok doc.text ∧
    (Document.ofValue doc.toValue).toJson = .ok doc.text := by
  have h := hr.inShape
  have hanew : (Document.ofValue doc.toValue).InShape := ⟨_, Shape.ofValue h.ordered⟩
  have hsame : (Document.ofValue doc.toValue).toValue = doc.toValue := toValue_ofValue h.ordered
  refine ⟨h.value_top, fun σ ε S => ⟨h.serialize_eq S, ?_⟩, ?_, ?_, ?_⟩
  · rw [hanew.serialize_eq, hsame]
  · rw [h.toJson_eq, h.text_eq]
  · rw [h.text_eq]
    rfl
  · rw [hanew.toJson_eq, hsame, h.text_eq]

/-- One element is gone, another one comes after a null, and the new field comes before the old
one. -/
theorem Reachable.serializes_as_value_of_changes :
    let start := Document.ofValue (.object [("b", .array [.null, .whole 7])])
    let less := ((Change.delete [.field "b", .index 0]).apply start).value.2
    let more := ((Change.set [.field "b", .index 2] (.string "x")).apply less).value.2
    let doc := ((Change.set [.field "a"] (.array [])).apply more).value.2
    let text := "\x7b\"a\":[],\"b\":[7,null,\"x\"]\x7d"
    doc.Reachable ∧ doc.toJson = .ok text ∧ (Document.ofValue doc.toValue).toJson = .ok text := by
  intro start less more doc text
  have ho : (Value.object [("b", .array [.null, .whole 7])]).Ordered :=
    ⟨List.pairwise_singleton _ _, ⟨trivial, trivial, trivial⟩, trivial⟩
  have hstart : start.Reachable := .ofValue ho
  have hless : less.Reachable := hstart.change (c := .delete [.field "b", .index 0]) trivial
  have hmore : more.Reachable :=
    hless.change (c := .set [.field "b", .index 2] (.string "x")) trivial
  have hdoc : doc.Reachable := hmore.change (c := .set [.field "a"] (.array [])) trivial
  -- The value after each change, as the change of the value says.
  have hlessv : less.toValue = .object [("b", .array [.whole 7])] := by
    refine ((mirrors_delete _).bind fun _ => Edit.mirrors_pure ()).toValue_of_some hstart.inShape ?_
    rw [toValue_ofValue ho]
    rfl
  have hmorev : more.toValue = .object [("b", .array [.whole 7, .null, .string "x"])] := by
    refine (mirrors_write [.field "b", .index 2] (v := .string "x") trivial).toValue_of_some
      hless.inShape ?_
    rw [hlessv]
    rfl
  have hdocv : doc.toValue
      = .object [("a", .array []), ("b", .array [.whole 7, .null, .string "x"])] := by
    refine (mirrors_write [.field "a"] (v := .array []) trivial).toValue_of_some hmore.inShape ?_
    rw [hmorev]
    rfl
  obtain ⟨-, -, hjson, hrender, hanew⟩ := hdoc.serializes_as_value
  have htext : doc.text = text := by
    rw [← Except.ok.inj hrender, hdocv]
    decide +kernel
  rw [htext] at hjson hanew
  exact ⟨hdoc, hjson, hanew⟩

end Expansion.Document
