import Expansion.Proofs.Document.Refinement
import Expansion.Proofs.Macro.Order

/-!
  Running the modifiers of a walk.

  The keys that call macros are marked.  A modifier that rewrites the wrapper of its key takes the
  key away and brings no marked one in, but it may do two things to the others: write the wrapper
  anew where an earlier modifier took it away, and move the elements behind a removed one.  The
  order of execution makes up for both.  `Covers` is the invariant: each marked field that is left
  belongs to a modifier that has yet to run.  One modifier preserves it (`Covers.apply`), so that
  all of them leave no marked field (`Covers.applyEach`).
-/

namespace Expansion

/-- Instructions that rewrite the wrapper of a key, with values whose names are good. -/
inductive Instruction.Rewrite (ok : String → Prop) (wrapper : Path) (name : String) :
    List Instruction → Prop
  | replace {x : Value} (ordered : x.Ordered) (good : x.EveryKey ok) :
    Rewrite ok wrapper name [.set wrapper x]
  | merge {x : Value} (ordered : x.Ordered) (good : x.EveryKey ok) :
    Rewrite ok wrapper name [.delete (wrapper ++ [.field name]), .overlay wrapper x]
  | encode (form : Transform) :
    Rewrite ok wrapper name [.transform (wrapper ++ [.field name]) wrapper form]
  | remove : Rewrite ok wrapper name [.delete wrapper]

/-- A lone removal removes the wrapper. -/
theorem Instruction.Rewrite.eq_delete {ok : String → Prop} {wrapper : Path} {name : String}
    {instructions : List Instruction} (h : Instruction.Rewrite ok wrapper name instructions)
    (hn : instructions.map Instruction.name = ["delete"]) : instructions = [.delete wrapper] := by
  cases h with
  | remove => rfl
  | replace => simp [Instruction.name] at hn
  | merge => simp [Instruction.name] at hn
  | encode => simp [Instruction.name] at hn

/-- A modifier that rewrites the wrapper of the key that it is bound to. -/
def Modifier.Rewrites (ok : String → Prop) (m : Modifier) : Prop :=
  ∃ wrapper name, m.path = wrapper ++ [.field name] ∧
    Instruction.Rewrite ok wrapper name m.instructions

namespace Instruction

variable {doc doc' : Document} {w : Path} {x : Value} {marked : String → Prop}

/-! ## Single instructions -/

/-- A write of an instruction is a write of the document, without its answer. -/
theorem value_write (path : Path) (v : Value) (doc : Document) :
    (write path v doc).value =
      match doc.write path v with
      | .ok (_, doc') => (.ok (), doc')
      | .error e => (.error (.document e), doc) := by
  rw [write, Edit.value_mapError, Edit.value_bind, Document.value_set]
  cases doc.write path v <;> rfl

/-- A removal of an instruction is one of the document, without its answer. -/
theorem value_apply_delete (path : Path) (doc : Document) :
    (apply (.delete path) doc).value =
      match doc.remove path with
      | .ok (_, doc') => (.ok (), doc')
      | .error e => (.error (.document e), doc) := by
  rw [apply, Edit.value_mapError, Edit.value_bind, Document.value_delete]
  cases doc.remove path <;> rfl

/-- A write of a value without marked names brings in at most the field that it writes. -/
theorem occurs_of_write (h : doc.InShape) (ho : x.Ordered)
    (hx : x.EveryKey fun name => ¬ marked name) (hw : (write w x doc).value = (.ok (), doc')) :
    doc'.InShape ∧ ∀ q, doc'.toValue.Occurs marked q →
      q = w ∨ (¬ w <+: q ∧ doc.toValue.Occurs marked q) := by
  rw [value_write] at hw
  cases hd : doc.write w x with
  | error e => simp [hd] at hw
  | ok answer =>
    obtain ⟨k, d⟩ := answer
    obtain rfl : d = doc' := by simpa [hd] using hw
    obtain ⟨hs, hv⟩ := h.write ho hd
    exact ⟨hs, fun q hq => hq.of_write? hv ((Value.everyKey_iff_not_occurs ho).mp hx)⟩

/-- A removal brings in no marked field, but moves those behind a removed element. -/
theorem occurs_of_delete (marked : String → Prop) (h : doc.InShape)
    (hd : (apply (.delete w) doc).value = (.ok (), doc')) :
    doc'.InShape ∧ ∀ q, doc'.toValue.Occurs marked q →
      (¬ w <+: q ∧ doc.toValue.Occurs marked q) ∨
        ∃ p i j r, w = p ++ [.index i] ∧ i ≤ j ∧ q = p ++ .index j :: r ∧
          doc.toValue.Occurs marked (p ++ .index (j + 1) :: r) := by
  rw [value_apply_delete] at hd
  cases hr : doc.remove w with
  | error e => simp [hr] at hd
  | ok answer =>
    obtain ⟨k, d⟩ := answer
    obtain rfl : d = doc' := by simpa [hr] using hd
    obtain ⟨hs, -, hv⟩ := h.remove hr
    have ho : doc.toValue.Ordered := h.ordered
    exact ⟨hs, fun q hq => hq.of_remove? ho hv⟩

/-- An overlay of a value without marked names brings in no marked field.  Its writes are below the
path, each of a value that the source holds, and under the names of the source. -/
theorem occurs_of_overlay (h : doc.InShape) (ho : x.Ordered)
    (hx : x.EveryKey fun name => ¬ marked name)
    (hd : (apply (.overlay w x) doc).value = (.ok (), doc')) :
    doc'.InShape ∧ ∀ q, doc'.toValue.Occurs marked q → doc.toValue.Occurs marked q := by
  -- An overlay is a row of writes, none of which is at a marked field.
  have hkeeps : Edit.Keeps (fun d : Document => d.InShape ∧
      ∀ q, d.toValue.Occurs marked q → doc.toValue.Occurs marked q) (Document.overlay w x) := by
    refine Document.keeps_overlay (fun path key v hkey hv hgood => ?_) w x ho hx
    refine Document.keeps_set fun d k d' hI hw => ?_
    obtain ⟨hs, hv'⟩ := hI.1.write hv hw
    refine ⟨hs, fun q hq => ?_⟩
    rcases hq.of_write? hv' ((Value.everyKey_iff_not_occurs hv).mp hgood) with rfl | ⟨-, hq⟩
    · obtain ⟨before, name, hp, hname, -⟩ := hq
      obtain ⟨-, hk⟩ := List.append_inj' hp rfl
      exact absurd hname (hkey name (List.cons.inj hk).1)
    · exact hI.2 q hq
  have hend := hkeeps doc ⟨h, fun _ hq => hq⟩
  have he : (Document.overlay w x doc).value.2 = doc' := congrArg Prod.snd hd
  rwa [he] at hend

end Instruction

namespace Modifier

/-- The first instruction is carried out, then the others; the error names the modifier. -/
theorem value_applyInstructions_cons (m : Modifier) (i : Instruction) (rest : List Instruction)
    (doc : Document) :
    (m.applyInstructions (i :: rest) doc).value =
      match (i.apply doc).value with
      | (.ok (), doc') => (m.applyInstructions rest doc').value
      | (.error e, doc') => (.error (.modifierExecution m.text m.macroName e), doc') := by
  rw [applyInstructions, Edit.value_note_bind, Edit.value_bind, Edit.value_mapError]
  match (i.apply doc).value with
  | (.ok (), doc') => rfl
  | (.error e, doc') => rfl

/-- Instructions that succeed do so one after the other. -/
theorem applyInstructions_cons_ok {m : Modifier} {i : Instruction} {rest : List Instruction}
    {doc doc' : Document} (h : (m.applyInstructions (i :: rest) doc).value = (.ok (), doc')) :
    ∃ d, (i.apply doc).value = (.ok (), d) ∧
      (m.applyInstructions rest d).value = (.ok (), doc') := by
  rw [value_applyInstructions_cons] at h
  match hi : (i.apply doc).value with
  | (.ok (), d) =>
    rw [hi] at h
    exact ⟨d, rfl, h⟩
  | (.error e, d) =>
    rw [hi] at h
    cases h

/-- A transform that succeeds writes a text. -/
theorem write_of_transform {source target : Path} {form : Transform} {doc doc' : Document}
    (h : (Instruction.apply (.transform source target form) doc).value = (.ok (), doc')) :
    ∃ text, (Instruction.write target (.string text) doc).value = (.ok (), doc') := by
  rw [Instruction.apply, Edit.value_current_bind, Edit.value_bind, Edit.value_lift] at h
  cases hv : (doc.getValue source).mapError MacroError.document with
  | error e => simp [hv] at h
  | ok v =>
    rw [hv] at h
    simp only [Edit.value_bind, Edit.value_lift] at h
    cases ht : (form.render v).mapError (MacroError.encode form) with
    | error e => simp [ht] at h
    | ok text =>
      rw [ht] at h
      exact ⟨text, h⟩

end Modifier

/-! ## The invariant -/

/-- Each marked field belongs to a modifier that has yet to run, and so does each marked key that
leads to one of these. -/
structure Covers (marked : String → Prop) (remaining : List Modifier) (doc : Document) : Prop where
  shape : doc.InShape
  covered : ∀ path, doc.toValue.Occurs marked path → ∃ m ∈ remaining, m.path = path
  above : ∀ m ∈ remaining, ∀ before name, marked name → before ++ [.field name] <+: m.path →
    ∃ m' ∈ remaining, m'.path = before ++ [.field name]

namespace Covers

variable {marked : String → Prop} {m : Modifier} {rest : List Modifier} {doc doc' : Document}

/-- A key above one that has yet to run has yet to run: it is no deeper. -/
theorem above_tail (h : Covers marked (m :: rest) doc)
    (hs : (m :: rest).Pairwise fun a b => a.runsBefore b = true) :
    ∀ m' ∈ rest, ∀ before name, marked name → before ++ [.field name] <+: m'.path →
      ∃ m'' ∈ rest, m''.path = before ++ [.field name] := by
  intro m' hm' before name hname hp
  obtain ⟨m'', hm'', he⟩ := h.above m' (List.mem_cons_of_mem m hm') before name hname hp
  rcases List.mem_cons.mp hm'' with rfl | hm''
  · -- `m''` runs first, so `m'` is no deeper and the two are at the same path.
    have hlen : m'.path.length ≤ m''.path.length := by
      rcases Modifier.runsBefore_iff.mp ((List.pairwise_cons.mp hs).1 m' hm') with h | ⟨h, -⟩ <;>
        omega
    exact ⟨m', hm', (hp.eq_of_length_le (he ▸ hlen)).symm⟩
  · exact ⟨m'', hm'', he⟩

/-- A marked field other than the one of the modifier is covered by the others. -/
theorem covered_tail (h : Covers marked (m :: rest) doc) {path : Path} (hp : path ≠ m.path)
    (ho : doc.toValue.Occurs marked path) : ∃ m' ∈ rest, m'.path = path := by
  obtain ⟨m', hm', rfl⟩ := h.covered path ho
  rcases List.mem_cons.mp hm' with rfl | hm'
  · exact absurd rfl hp
  · exact ⟨m', hm', rfl⟩

/-- A write at the wrapper: the key is gone, and a wrapper that is written anew is itself a key that
has yet to run.  If the wrapper was taken away before, the write brings its own field back, which
may be marked. -/
theorem of_write (h : Covers marked (m :: rest) doc) {wrapper : Path} {name : String}
    (hs : (m :: rest).Pairwise fun a b => a.runsBefore b = true)
    (hm : m.path = wrapper ++ [.field name]) {x : Value} (ho : x.Ordered)
    (hx : x.EveryKey fun name => ¬ marked name)
    (hw : (Instruction.write wrapper x doc).value = (.ok (), doc')) : Covers marked rest doc' := by
  obtain ⟨hshape, hocc⟩ := Instruction.occurs_of_write h.shape ho hx hw
  refine ⟨hshape, fun q hq => ?_, h.above_tail hs⟩
  rcases hocc q hq with rfl | ⟨hp, hq⟩
  · -- The wrapper is a marked field itself: it leads to the key, so it has yet to run.
    obtain ⟨before, k, rfl, hk, -⟩ := hq
    obtain ⟨m', hm', he⟩ :=
      h.above m List.mem_cons_self before k hk (hm ▸ List.prefix_append _ _)
    rcases List.mem_cons.mp hm' with rfl | hm'
    · have hlen := congrArg List.length (hm.symm.trans he)
      simp at hlen
    · exact ⟨m', hm', he⟩
  · refine h.covered_tail (fun e => hp ?_) hq
    rw [e, hm]
    exact List.prefix_append _ _

/-- A removal of the wrapper: what is behind a removed element has run before, so nothing marked
moves.  Only a removed element moves others, and those that move are behind it in the same array. -/
theorem of_remove (h : Covers marked (m :: rest) doc) {wrapper : Path} {name : String}
    (hs : (m :: rest).Pairwise fun a b => a.runsBefore b = true)
    (hm : m.path = wrapper ++ [.field name])
    (hd : (Instruction.apply (.delete wrapper) doc).value = (.ok (), doc')) :
    Covers marked rest doc' := by
  obtain ⟨hshape, hocc⟩ := Instruction.occurs_of_delete marked h.shape hd
  refine ⟨hshape, fun q hq => ?_, h.above_tail hs⟩
  rcases hocc q hq with ⟨hp, hq⟩ | ⟨p, i, j, r, rfl, hij, rfl, hbehind⟩
  · refine h.covered_tail (fun e => hp ?_) hq
    rw [e, hm]
    exact List.prefix_append _ _
  · -- A marked field behind the removed element would belong to a modifier that runs before `m`.
    exfalso
    have hr : r ≠ [] := by
      rintro rfl
      obtain ⟨before, k, he, -, -⟩ := hbehind
      obtain ⟨-, hk⟩ := List.append_inj' he rfl
      cases hk
    obtain ⟨m', hm', he⟩ := h.covered _ hbehind
    have hpath : m.path = p ++ .index i :: [.field name] := by
      rw [hm, List.append_assoc]
      rfl
    have hlen : m.path.length ≤ m'.path.length := by
      have := List.length_pos_iff.mpr hr
      rw [hpath, he]
      simp only [List.length_append, List.length_cons, List.length_nil]
      omega
    have hnot := Modifier.not_runsBefore (Nat.lt_succ_of_le hij) hpath he hlen
    rcases List.mem_cons.mp hm' with rfl | hm'
    · rw [hpath] at he
      have hk := (List.cons.inj (List.append_cancel_left he)).1
      have : i = j + 1 := Key.index.inj hk
      omega
    · have hbefore := (List.pairwise_cons.mp hs).1 m' hm'
      rw [hnot] at hbefore
      contradiction

/-- The removal of the key and an overlay of the wrapper.  The wrapper stays, so nothing is written
anew but what the source brings. -/
theorem of_merge (h : Covers marked (m :: rest) doc) {wrapper : Path} {name : String}
    (hs : (m :: rest).Pairwise fun a b => a.runsBefore b = true)
    (hm : m.path = wrapper ++ [.field name]) {x : Value} (ho : x.Ordered)
    (hx : x.EveryKey fun name => ¬ marked name) {d : Document}
    (hd : (Instruction.apply (.delete m.path) doc).value = (.ok (), d))
    (hw : (Instruction.apply (.overlay wrapper x) d).value = (.ok (), doc')) :
    Covers marked rest doc' := by
  obtain ⟨hd, hdeleted⟩ := Instruction.occurs_of_delete marked h.shape hd
  obtain ⟨hshape, hocc⟩ := Instruction.occurs_of_overlay hd ho hx hw
  refine ⟨hshape, fun q hq => ?_, h.above_tail hs⟩
  rcases hdeleted q (hocc q hq) with ⟨hp, hq⟩ | ⟨p, i, j, r, he, -, -, -⟩
  · refine h.covered_tail (fun e => hp ?_) hq
    exact e ▸ List.prefix_refl q
  · -- The key is a field, so no element moves.
    obtain ⟨-, hk⟩ := List.append_inj' (hm.symm.trans he) rfl
    cases hk

/-- A modifier that runs takes its key away and leaves what the others cover. -/
theorem apply (h : Covers marked (m :: rest) doc)
    (hs : (m :: rest).Pairwise fun a b => a.runsBefore b = true)
    (hm : m.Rewrites fun name => ¬ marked name) (ha : (m.apply doc).value = (.ok (), doc')) :
    Covers marked rest doc' := by
  obtain ⟨wrapper, name, hpath, hr⟩ := hm
  rw [Modifier.apply] at ha
  -- One case for each way to rewrite the wrapper; the last instruction leaves the final document.
  have hnil : ∀ {d d' : Document}, (m.applyInstructions [] d).value = (.ok (), d') → d = d' :=
    fun h => congrArg Prod.snd h
  generalize m.instructions = instructions at hr ha
  cases hr with
  | replace ho hx =>
    obtain ⟨d, hw, hd⟩ := Modifier.applyInstructions_cons_ok ha
    obtain rfl := hnil hd
    exact h.of_write hs hpath ho hx hw
  | merge ho hx =>
    obtain ⟨d, hd, ha⟩ := Modifier.applyInstructions_cons_ok ha
    obtain ⟨d', hw, hd'⟩ := Modifier.applyInstructions_cons_ok ha
    obtain rfl := hnil hd'
    exact h.of_merge hs hpath ho hx (hpath ▸ hd) hw
  | encode form =>
    obtain ⟨d, hw, hd⟩ := Modifier.applyInstructions_cons_ok ha
    obtain rfl := hnil hd
    obtain ⟨text, hw⟩ := Modifier.write_of_transform hw
    have ho : (Value.string text).Ordered := trivial
    exact h.of_write hs hpath ho trivial hw
  | remove =>
    obtain ⟨d, hw, hd⟩ := Modifier.applyInstructions_cons_ok ha
    obtain rfl := hnil hd
    exact h.of_remove hs hpath hw

/-- Modifiers that run one after the other leave no marked field. -/
theorem applyEach {remaining : List Modifier} (h : Covers marked remaining doc)
    (hs : remaining.Pairwise fun a b => a.runsBefore b = true)
    (hm : ∀ m ∈ remaining, m.Rewrites fun name => ¬ marked name)
    (ha : (Modifier.applyEach remaining doc).value = (.ok (), doc')) : Covers marked [] doc' := by
  induction remaining generalizing doc with
  | nil =>
    obtain rfl : doc = doc' := congrArg Prod.snd ha
    exact h
  | cons m rest ih =>
    rw [Modifier.applyEach, Edit.value_bind] at ha
    match hd : (m.apply doc).value with
    | (.error e, d) =>
      rw [hd] at ha
      cases ha
    | (.ok (), d) =>
      rw [hd] at ha
      exact ih (h.apply hs (hm m List.mem_cons_self) hd) (List.pairwise_cons.mp hs).2
        (fun m' hm' => hm m' (List.mem_cons_of_mem m hm')) ha

/-- Where every modifier has run, no marked field is left. -/
theorem not_occurs (h : Covers marked [] doc) (path : Path) : ¬ doc.toValue.Occurs marked path := by
  intro ho
  obtain ⟨m, hm, -⟩ := h.covered path ho
  cases hm

end Covers

end Expansion
