import Expansion.Proofs.Document.Mirror
import Expansion.Proofs.Macro.Rewrite

/-!
  What modifiers make of values.

  `effect?` is an instruction as a function of values, where it succeeds.  Carrying instructions out
  on a document mirrors their effect on its value (`Instruction.mirrors_apply`), and so do modifiers
  that run one after the other (`Modifier.mirrors_applyEach`, `Pending.mirrors_applyAll`).  So what
  modifiers do to a document, and whether they fail, depends on its value alone.
-/

namespace Expansion

open Edit (Mirrors)

namespace Instruction

/-- What an instruction makes of a value. -/
def effect? : Instruction → Value → Option Value
  | set path x, v => v.write? path x
  | overlay path x, v => Value.overlay? path x v
  | delete path, v => v.remove? path
  | transform source target form, v =>
    (v.get? source).bind fun x =>
      (form.render x).toOption.bind fun text => v.write? target (.string text)

/-- What instructions make of a value, one after the other. -/
def effects? : List Instruction → Value → Option Value
  | [], v => some v
  | i :: rest, v => (i.effect? v).bind (effects? rest)

/-- The value that an instruction brings in is in order. -/
def Ordered : Instruction → Prop
  | set _ x => x.Ordered
  | overlay _ x => x.Ordered
  | delete _ => True
  | transform .. => True

/-- Carrying out an instruction mirrors its effect.  Writes, overlays and removals do to the
document what they do to its value; a transform reads the value that it renders and writes the text.
-/
theorem mirrors_apply {i : Instruction} (h : i.Ordered) : Mirrors i.apply i.effect? := by
  cases i with
  | set path x => exact (Document.mirrors_write path h).mapError MacroError.document
  | overlay path x => exact (Document.mirrors_overlay path h).mapError MacroError.document
  | delete path =>
    have hm := (Document.mirrors_delete path).bind fun _ =>
      Edit.mirrors_pure (ε := DocumentError) ()
    refine (hm.congr fun v => ?_).mapError MacroError.document
    show (v.remove? path).bind some = v.remove? path
    cases v.remove? path <;> rfl
  | transform source target form =>
    intro doc hd
    have hread := hd.toOption_getValue source
    rw [apply, Edit.value_current_bind, Edit.value_bind, Edit.value_lift]
    -- Reading and rendering change nothing, so what fails there fails before the write.
    cases hv : doc.getValue source with
    | error e =>
      rw [hv] at hread
      have hnone : doc.toValue.get? source = none := hread.symm
      show (doc.toValue.get? source).bind _ = none
      rw [hnone]
      rfl
    | ok x =>
      rw [hv] at hread
      have hsome : doc.toValue.get? source = some x := hread.symm
      have hmap : (Except.ok x : Except DocumentError Value).mapError MacroError.document = .ok x :=
        rfl
      simp only [hmap, Edit.value_bind, Edit.value_lift, effect?, hsome, Option.bind_some]
      cases form.render x with
      | error kind => rfl
      | ok text =>
        have htext : (Value.string text).Ordered := trivial
        exact (Document.mirrors_write target htext).mapError MacroError.document doc hd

/-- Instructions that rewrite a wrapper bring in values in order. -/
theorem Rewrite.ordered {ok : String → Prop} {wrapper : Path} {name : String}
    {instructions : List Instruction} (h : Rewrite ok wrapper name instructions) :
    ∀ i ∈ instructions, i.Ordered := by
  cases h with
  | replace ho hx => simpa [Ordered] using ho
  | merge ho hx => simpa [Ordered] using ho
  | encode form => simp [Ordered]
  | remove => simp [Ordered]

end Instruction

namespace Modifier

/-- What a modifier makes of a value. -/
def effect? (m : Modifier) (v : Value) : Option Value := Instruction.effects? m.instructions v

/-- What modifiers make of a value, one after the other. -/
def effectEach? : List Modifier → Value → Option Value
  | [], v => some v
  | m :: rest, v => (m.effect? v).bind (effectEach? rest)

/-- The values that a modifier brings in are in order. -/
def Ordered (m : Modifier) : Prop := ∀ i ∈ m.instructions, i.Ordered

/-- A modifier that rewrites a wrapper brings in values in order. -/
theorem Rewrites.ordered {ok : String → Prop} {m : Modifier} (h : m.Rewrites ok) : m.Ordered := by
  obtain ⟨w, name, -, hr⟩ := h
  exact hr.ordered

/-- Carrying out instructions mirrors their effect. -/
theorem mirrors_applyInstructions (m : Modifier) {instructions : List Instruction}
    (h : ∀ i ∈ instructions, i.Ordered) :
    Mirrors (m.applyInstructions instructions) (Instruction.effects? instructions) := by
  induction instructions with
  | nil => exact Edit.mirrors_pure ()
  | cons i rest ih =>
    have hi := (Instruction.mirrors_apply (h i List.mem_cons_self)).mapError
      (MacroError.modifierExecution m.text m.macroName)
    have hrest := ih fun j hj => h j (List.mem_cons_of_mem i hj)
    exact Edit.mirrors_note_bind (hi.bind fun _ => hrest) _ _ _

/-- Running a modifier mirrors its effect. -/
theorem mirrors_apply {m : Modifier} (h : m.Ordered) : Mirrors m.apply m.effect? :=
  m.mirrors_applyInstructions h

/-- Running modifiers one after the other mirrors their effect. -/
theorem mirrors_applyEach {ms : List Modifier} (h : ∀ m ∈ ms, m.Ordered) :
    Mirrors (applyEach ms) (effectEach? ms) := by
  induction ms with
  | nil => exact Edit.mirrors_pure ()
  | cons m rest ih =>
    have hrest := ih fun m' hm' => h m' (List.mem_cons_of_mem m hm')
    exact (mirrors_apply (h m List.mem_cons_self)).bind fun _ => hrest

end Modifier

namespace Pending

variable {pending : Pending}

/-- Running the modifiers of a walk mirrors their effect in the order in which they run. -/
theorem mirrors_applyAll (h : ∀ m ∈ pending.all, m.Ordered) :
    Mirrors pending.applyAll (Modifier.effectEach? pending.inOrder) := by
  have hm := Modifier.mirrors_applyEach fun m hm => h m (mem_inOrder.mp hm)
  refine (hm.bind fun _ => Edit.mirrors_pure pending.len).congr fun v => ?_
  cases Modifier.effectEach? pending.inOrder v <;> rfl

/-- Modifiers that make something of the value run to the end and leave it. -/
theorem exists_applyAll_of_effect {doc : Document} {v : Value} (hd : doc.InShape)
    (h : ∀ m ∈ pending.all, m.Ordered)
    (hv : Modifier.effectEach? pending.inOrder doc.toValue = some v) :
    ∃ doc', (pending.applyAll doc).value = (.ok pending.len, doc') ∧ doc'.InShape ∧
      doc'.toValue = v := by
  obtain ⟨u, doc', hrun, hshape, hvalue⟩ :=
    (Modifier.mirrors_applyEach fun m hm => h m (mem_inOrder.mp hm)).of_some hd hv
  refine ⟨doc', ?_, hshape, hvalue⟩
  rw [applyAll, Edit.value_bind, hrun]
  rfl

end Pending

end Expansion
