import Expansion.Proofs.Document.Atomic
import Expansion.Proofs.Macro.Effect

/-!
  What a failing run of modifiers leaves behind.

  An instruction that fails leaves the document as it is (`Instruction.atomic_apply`), and a row of
  edits stops at the first one that fails (`Edit.value_each_error_iff`).  So modifiers that fail
  leave what the instructions before the failing one make of the document, and the error names the
  modifier of the failing one (`Modifier.applyEach_error_iff`).
-/

namespace Expansion

namespace Edit

variable {ε α : Type}

/-! ## Rows of edits -/

/-- A row of edits stops at the first one that fails.  The rows are those of instructions and those
of modifiers, which are carried out in the same way; so the lemma takes the row and its step from
outside. -/
theorem value_each_error_iff (each : List α → Edit ε Unit) (step : α → Edit ε Unit)
    (hnil : each [] = pure ())
    (hcons : ∀ a rest doc,
      (each (a :: rest) doc).value = ((step a >>= fun _ => each rest) doc).value)
    {l : List α} {doc doc' : Document} {e : ε} :
    (each l doc).value = (.error e, doc') ↔
      ∃ before a after d, l = before ++ a :: after ∧ (each before doc).value = (.ok (), d) ∧
        (step a d).value = (.error e, doc') := by
  induction l generalizing doc with
  | nil => simp [hnil]
  | cons a rest ih =>
    have hstart : ∀ next, (each [] doc).value = (.ok (), next) → next = doc := by
      intro next h
      rw [hnil, value_pure] at h
      exact (Prod.mk.inj h).2.symm
    rw [hcons, value_bind]
    -- By the outcome of the first edit: it is the one that fails, or the rest fails from what it
    -- leaves.
    match ha : (step a doc).value with
    | (.error cause, d) =>
      constructor
      · intro h
        exact ⟨[], a, rest, doc, rfl, by rw [hnil, value_pure], ha.trans h⟩
      · rintro ⟨before, b, after, next, hl, hbefore, hb⟩
        cases before with
        | nil =>
          obtain ⟨rfl, -⟩ := List.cons.inj hl
          obtain rfl := hstart next hbefore
          exact ha.symm.trans hb
        | cons c before =>
          obtain ⟨rfl, -⟩ := List.cons.inj hl
          rw [hcons, value_bind, ha] at hbefore
          cases hbefore
    | (.ok (), next) =>
      rw [ih]
      constructor
      · rintro ⟨before, b, after, d, rfl, hbefore, hb⟩
        refine ⟨a :: before, b, after, d, rfl, ?_, hb⟩
        rw [hcons, value_bind, ha]
        exact hbefore
      · rintro ⟨before, b, after, d, hl, hbefore, hb⟩
        cases before with
        | nil =>
          obtain ⟨rfl, -⟩ := List.cons.inj hl
          obtain rfl := hstart d hbefore
          rw [ha] at hb
          cases hb
        | cons c before =>
          obtain ⟨rfl, rfl⟩ := List.cons.inj hl
          rw [hcons, value_bind, ha] at hbefore
          exact ⟨before, b, after, d, rfl, hbefore, hb⟩

end Edit

/-! ## Instructions -/

namespace Instruction

open Edit (Atomic)

/-- A write that fails leaves the document as it is. -/
theorem atomic_write (path : Path) (v : Value) : Atomic (write path v) :=
  ((Document.atomic_set path v).bind_pure ()).mapError _

/-- An instruction that fails leaves the document as it is.  For an overlay this is a fact about the
whole of its writes, which is why it is proved with them. -/
theorem atomic_apply {i : Instruction} (h : i.Ordered) : Atomic i.apply := by
  cases i with
  | set path x => exact atomic_write path x
  | overlay path x => exact (Document.atomic_overlay path h).mapError _
  | delete path => exact ((Document.atomic_change _).bind_pure ()).mapError _
  | transform source target form =>
    -- The source is read and its text made before anything is written.
    refine Edit.atomic_current_bind fun d => Edit.atomic_lift_bind _ fun x => ?_
    exact Edit.atomic_lift_bind _ fun text => atomic_write target _

/-- An instruction fails where it has no effect. -/
theorem exists_error_of_effect?_eq_none {i : Instruction} (h : i.Ordered) {doc : Document}
    (hd : doc.InShape) (hnone : i.effect? doc.toValue = none) :
    ∃ cause, (i.apply doc).value = (.error cause, doc) := by
  match ha : (i.apply doc).value with
  | (.error cause, d) =>
    obtain rfl : d = doc := atomic_apply h doc hd cause d ha
    exact ⟨cause, rfl⟩
  | (.ok (), d) =>
    have hsome := ((mirrors_apply h).of_ok hd ha).2
    rw [hnone] at hsome
    cases hsome

/-- Carries out instructions in order, up to the first failure. -/
def applyEach : List Instruction → Edit MacroError Unit
  | [] => pure ()
  | i :: rest => do
    i.apply
    applyEach rest

/-- Two rows of instructions are carried out one after the other. -/
theorem value_applyEach_append (before after : List Instruction) (doc : Document) :
    (applyEach (before ++ after) doc).value
      = ((applyEach before >>= fun _ => applyEach after) doc).value := by
  induction before generalizing doc with
  | nil => rfl
  | cons i rest ih =>
    simp only [List.cons_append, applyEach, Edit.value_bind]
    match (i.apply doc).value with
    | (.error e, d) => rfl
    | (.ok (), d) =>
      rw [← Edit.value_bind]
      exact ih d

/-- Instructions succeed in a row exactly when those before do, and then those after. -/
theorem applyEach_append_ok_iff {before after : List Instruction} {doc doc' : Document} :
    (applyEach (before ++ after) doc).value = (.ok (), doc') ↔
      ∃ d, (applyEach before doc).value = (.ok (), d) ∧
        (applyEach after d).value = (.ok (), doc') := by
  rw [value_applyEach_append, Edit.value_bind]
  match hb : (applyEach before doc).value with
  | (.error e, d) => simp
  | (.ok (), d) => simp

end Instruction

/-! ## Modifiers -/

namespace Modifier

/-- For a modifier, instructions succeed as they do by themselves. -/
theorem applyInstructions_ok_iff (m : Modifier) (is : List Instruction) {doc doc' : Document} :
    (m.applyInstructions is doc).value = (.ok (), doc') ↔
      (Instruction.applyEach is doc).value = (.ok (), doc') := by
  induction is generalizing doc with
  | nil => rfl
  | cons i rest ih =>
    rw [value_applyInstructions_cons, Instruction.applyEach, Edit.value_bind]
    match (i.apply doc).value with
    | (.error e, d) => simp
    | (.ok (), d) => exact ih

/-- Modifiers succeed as their instructions do, one after the other. -/
theorem applyEach_ok_iff {ms : List Modifier} {doc doc' : Document} :
    (applyEach ms doc).value = (.ok (), doc') ↔
      (Instruction.applyEach (ms.flatMap instructions) doc).value = (.ok (), doc') := by
  induction ms generalizing doc with
  | nil => rfl
  | cons m rest ih =>
    rw [List.flatMap_cons, Instruction.applyEach_append_ok_iff, applyEach, Edit.value_bind, apply]
    simp only [← ih, ← m.applyInstructions_ok_iff m.instructions]
    rcases (m.applyInstructions m.instructions doc).value with ⟨e | ⟨⟩, d⟩
    · simp
    · simp

/-- A modifier that fails does so at one of its instructions, and what those before it make of the
document is left.  What is left is a document in shape, since instructions that succeed keep it so.
-/
theorem apply_error_iff {m : Modifier} (hm : m.Ordered) {doc doc' : Document} (hd : doc.InShape)
    {e : MacroError} :
    (m.apply doc).value = (.error e, doc') ↔
      ∃ done i rest cause, m.instructions = done ++ i :: rest ∧
        (Instruction.applyEach done doc).value = (.ok (), doc') ∧
        (i.apply doc').value = (.error cause, doc') ∧
        e = .modifierExecution m.text m.macroName cause := by
  rw [apply, Edit.value_each_error_iff m.applyInstructions
    (fun i => Edit.mapError (.modifierExecution m.text m.macroName) i.apply) rfl fun _ _ _ => rfl]
  simp only [Edit.value_mapError_error_iff, m.applyInstructions_ok_iff]
  constructor
  · rintro ⟨done, i, rest, d, hl, hdone, cause, hi, rfl⟩
    -- The failing instruction leaves what it finds.
    have hin : ∀ j ∈ m.instructions, j.Ordered := hm
    rw [hl] at hin
    have hmirrors := m.mirrors_applyInstructions fun j hj => hin j (List.mem_append_left _ hj)
    have hshape : d.InShape := (hmirrors.of_ok hd ((m.applyInstructions_ok_iff done).mpr hdone)).1
    obtain rfl : doc' = d := Instruction.atomic_apply (hin i (by simp)) d hshape cause doc' hi
    exact ⟨done, i, rest, cause, hl, hdone, hi, rfl⟩
  · rintro ⟨done, i, rest, cause, hl, hdone, hi, rfl⟩
    exact ⟨done, i, rest, doc', hl, hdone, cause, hi, rfl⟩

/-- Modifiers fail at an instruction of one of them, and what the instructions before it make of the
document is left.  The instructions before it are those of the modifiers before, and the first ones
of its own modifier, carried out in one row. -/
theorem applyEach_error_iff {ms : List Modifier} (hms : ∀ m ∈ ms, m.Ordered)
    {doc doc' : Document} (hd : doc.InShape) {e : MacroError} :
    (applyEach ms doc).value = (.error e, doc') ↔
      ∃ before m after done i rest cause, ms = before ++ m :: after ∧
        m.instructions = done ++ i :: rest ∧
        (Instruction.applyEach (before.flatMap instructions ++ done) doc).value = (.ok (), doc') ∧
        (i.apply doc').value = (.error cause, doc') ∧
        e = .modifierExecution m.text m.macroName cause := by
  -- The modifiers before the failing one leave a document in shape for it.
  have hshape : ∀ before m after d, ms = before ++ m :: after →
      (applyEach before doc).value = (.ok (), d) → d.InShape := by
    intro before m after d hl hbefore
    have hmirrors := mirrors_applyEach fun m' hm' => hms m' (hl ▸ List.mem_append_left _ hm')
    exact (hmirrors.of_ok hd hbefore).1
  rw [Edit.value_each_error_iff applyEach apply rfl fun _ _ _ => rfl]
  constructor
  · rintro ⟨before, m, after, d, hl, hbefore, hm⟩
    have ho : m.Ordered := hms m (by simp [hl])
    obtain ⟨done, i, rest, cause, hinstructions, hdone, hi, rfl⟩ :=
      (apply_error_iff ho (hshape before m after d hl hbefore)).mp hm
    refine ⟨before, m, after, done, i, rest, cause, hl, hinstructions, ?_, hi, rfl⟩
    exact Instruction.applyEach_append_ok_iff.mpr ⟨d, applyEach_ok_iff.mp hbefore, hdone⟩
  · rintro ⟨before, m, after, done, i, rest, cause, hl, hm, hdone, hi, rfl⟩
    have ho : m.Ordered := hms m (by simp [hl])
    obtain ⟨d, hbefore, hdone⟩ := Instruction.applyEach_append_ok_iff.mp hdone
    have hbefore := applyEach_ok_iff.mpr hbefore
    refine ⟨before, m, after, d, hl, hbefore, ?_⟩
    exact (apply_error_iff ho (hshape before m after d hl hbefore)).mpr
      ⟨done, i, rest, cause, hm, hdone, hi, rfl⟩

end Modifier

namespace Pending

/-- Pending modifiers fail as they do in their order. -/
theorem value_applyAll_error_iff {pending : Pending} {doc doc' : Document} {e : MacroError} :
    (pending.applyAll doc).value = (.error e, doc') ↔
      (Modifier.applyEach pending.inOrder doc).value = (.error e, doc') := by
  rw [applyAll, Edit.value_bind]
  rcases (Modifier.applyEach pending.inOrder doc).value with ⟨e' | ⟨⟩, d⟩
  · simp
  · simp

/-- Instructions change all or nothing: one that fails leaves the document as it is, slots and count
included.  A write that has a place is carried out, and the container that it goes into stays in use
meanwhile, so nothing fails halfway.

So modifiers that fail leave a prefix of what was to be done.  They fail with an error exactly when
some instruction `i` of some modifier `m` fails after all instructions of the modifiers before `m`
and those of `m` before `i` were carried out in order; the document that those leave is left, and
the error names the path and the macro of `m`. -/
theorem failed_applyAll_leaves_done {doc : Document} (hr : doc.Reachable) {pending : Pending}
    (ho : ∀ m ∈ pending.all, m.Ordered) :
    (∀ i : Instruction, i.Ordered → ∀ e doc', (i.apply doc).value = (.error e, doc') →
      doc' = doc) ∧
    (∀ path c place, doc.placeAt path = .ok (c, place) → ∀ v : Value, v.Ordered →
      (∃ answer, doc.writeAt c v place = .ok answer) ∧
      ∀ items, (((doc.buildItems c items).2.alloc (some c) v).2.slot? c).isSome) ∧
    ∀ e doc', (pending.applyAll doc).value = (.error e, doc') ↔
      ∃ before m after done i rest cause, pending.inOrder = before ++ m :: after ∧
        m.instructions = done ++ i :: rest ∧
        (Instruction.applyEach (before.flatMap Modifier.instructions ++ done) doc).value
          = (.ok (), doc') ∧
        (i.apply doc').value = (.error cause, doc') ∧
        e = .modifierExecution m.text m.macroName cause := by
  have hd := hr.inShape
  refine ⟨fun i hi e doc' ha => ?_, fun path c place hp v hv => ⟨?_, fun items => ?_⟩,
    fun e doc' => ?_⟩
  · exact Instruction.atomic_apply hi doc hd e doc' ha
  · exact hd.exists_writeAt hv hp
  · have hc := hd.isSome_slot?_of_get (Document.get_of_placeAt hp).1
    exact Document.isSome_slot?_alloc hc items v
  · rw [value_applyAll_error_iff]
    exact Modifier.applyEach_error_iff (fun m hm => ho m (mem_inOrder.mp hm)) hd

/-- A write is kept when the removal after it fails. -/
theorem failed_applyAll_leaves_done_of_missing :
    let doc := Document.ofValue (.object [("a", .string "x")])
    let m : Modifier :=
      ⟨[.field "k"], "put", [.set [.field "a"] (.string "y"), .delete [.field "b"]]⟩
    let pending := ({} : Pending).add m
    ∃ cause doc', (pending.applyAll doc).value
        = (.error (.modifierExecution m.text "put" cause), doc') ∧
      doc'.toValue = .object [("a", .string "y")] := by
  intro doc m pending
  have ho : (Value.object [("a", .string "x")]).Ordered :=
    ⟨List.pairwise_singleton _ _, trivial, trivial⟩
  have hr : doc.Reachable := .ofValue ho
  have hwrite : (Instruction.set [.field "a"] (.string "y")).Ordered := trivial
  have hdelete : (Instruction.delete [.field "b"]).Ordered := trivial
  have hm : ∀ m' ∈ pending.all, m'.Ordered := by
    intro m' hm'
    obtain rfl := List.mem_singleton.mp hm'
    exact List.forall_mem_cons.mpr ⟨hwrite, List.forall_mem_singleton.mpr hdelete⟩
  -- The write has an effect on the value, and after it there is still nothing to remove.
  obtain ⟨a, doc', hset, hshape, hvalue⟩ := (Instruction.mirrors_apply hwrite).of_some hr.inShape
    (v := .object [("a", .string "y")]) (by rw [Document.toValue_ofValue ho]; rfl)
  obtain ⟨cause, hfails⟩ := Instruction.exists_error_of_effect?_eq_none hdelete hshape
    (by rw [hvalue]; rfl)
  refine ⟨cause, doc', ?_, hvalue⟩
  refine ((failed_applyAll_leaves_done hr hm).2.2 _ doc').mpr
    ⟨[], m, [], [.set [.field "a"] (.string "y")], .delete [.field "b"], [], cause, ?_, rfl, ?_,
      hfails, rfl⟩
  · exact inOrder_of_eq_singleton rfl
  · show (Instruction.applyEach [.set [.field "a"] (.string "y")] doc).value = (.ok (), doc')
    rw [Instruction.applyEach, Edit.value_bind, hset]
    rfl

end Pending

end Expansion
