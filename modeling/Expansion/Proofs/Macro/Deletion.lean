import Expansion.Proofs.Macro.Collection
import Expansion.Proofs.Macro.Effect
import Expansion.Proofs.Value.Removal

/-!
  The first phase takes out the wrappers of deletions.

  `Null.Delete` is the only built-in macro of the first phase, so every modifier of that phase
  deletes the wrapper of its key (`deletion_of_mem_all`), and the modifiers take parts of the value
  out one after the other (`effectEach?_eq_removeEach?`).  They run deepest first and later elements
  first, so a deletion spares the wrappers that are still to be deleted, if no two of them are the
  same (`spares_of_runsBefore`).  Then the wrappers are taken out all at once (`directives_prune`).
  A wrapper with two deletions is deleted twice: the second time what has moved up into its place
  goes (`directives_delete_twice`).
-/

namespace Expansion

namespace Macro

/-- The macro that removes its wrapper. -/
def deletion : Definition := ⟨.null, .directives, "Delete"⟩

/-- Of the built-in macros only the deletion is for the first phase. -/
theorem eq_delete_of_directives {attributes : Attributes} {m : Registered}
    (hm : m ∈ builtins attributes) (hp : m.definition.phase = .directives) :
    m = ⟨deletion, delete⟩ := by
  simp only [builtins, List.mem_cons, List.not_mem_nil, or_false] at hm
  rcases hm with rfl | rfl | rfl | rfl | rfl | rfl | rfl | rfl | rfl
  · rfl
  all_goals cases hp

end Macro

/-! ## Modifiers that delete their wrappers -/

namespace Modifier

/-- The path of the object that holds the key of the modifier. -/
def wrapper (m : Modifier) : Path := m.path.dropLast

/-- The wrapper is at the path without the name of the key. -/
theorem wrapper_of_path {m : Modifier} {w : Path} {name : String}
    (hp : m.path = w ++ [.field name]) : m.wrapper = w := by
  rw [wrapper, hp, List.dropLast_concat]

/-- Modifiers that each delete one path take the parts there out one after the other.  So a phase of
deletions is a question about values alone. -/
theorem effectEach?_eq_removeEach? {ms : List Modifier} {target : Modifier → Path}
    (h : ∀ m ∈ ms, m.instructions = [.delete (target m)]) (v : Value) :
    effectEach? ms v = Value.removeEach? (ms.map target) v := by
  induction ms generalizing v with
  | nil => rfl
  | cons m rest ih =>
    obtain ⟨hm, hrest⟩ := List.forall_mem_cons.mp h
    have hone : m.effect? v = v.remove? (target m) := by
      rw [effect?, hm]
      exact Option.bind_fun_some _
    rw [effectEach?, hone, List.map_cons, Value.removeEach?]
    exact congrArg _ (funext (ih hrest))

/-- The path of a modifier that runs before another is not above the other's path, nor that of an
earlier element of the same array, unless the two are the same.  So it is with their wrappers, and
whenever as many last keys are left off both. -/
theorem spares_of_runsBefore {a b : Modifier} {p q r s : Path} (ha : a.path = p ++ r)
    (hb : b.path = q ++ s) (hlen : r.length = s.length) (hab : a.runsBefore b = true)
    (hne : p ≠ q) : Path.Spares p q := by
  have hshorter : q.length ≤ p.length := by
    have hla : a.path.length = p.length + r.length := by rw [ha, List.length_append]
    have hlb : b.path.length = q.length + s.length := by rw [hb, List.length_append]
    rcases runsBefore_iff.mp hab with hlt | ⟨heq, -⟩ <;> omega
  have hout : ¬ p <+: q := fun hpre => hne (hpre.eq_of_length_le hshorter)
  refine ⟨hout, ?_⟩
  rintro before i j rest rfl rfl
  have hij : i ≠ j := by
    rintro rfl
    exact hout ⟨rest, by rw [List.append_assoc]; rfl⟩
  refine Nat.lt_of_le_of_ne (Nat.le_of_not_lt fun hlt => ?_) hij.symm
  -- The later of two elements of one array would have run first.
  have ha' : a.path = before ++ .index i :: r := by rw [ha, List.append_assoc]; rfl
  have hb' : b.path = before ++ .index j :: (rest ++ s) := by rw [hb, List.append_assoc]; rfl
  have hdeep : a.path.length ≤ b.path.length := by
    simp only [ha', hb', List.length_append, List.length_cons, hlen]
    omega
  exact Bool.false_ne_true ((not_runsBefore hlt ha' hb' hdeep).symm.trans hab)

end Modifier

/-! ## Keys of deletions -/

/-- The key calls `Null.Delete`. -/
def Registry.deletes (registry : Registry) (key : String) : Bool :=
  (registry.lookup .directives key).any fun found => found.1.definition = Macro.deletion

namespace Evaluator

open Macro (deletion)

variable {space : String} {attributes : Attributes} {settings : Settings} {kindCheck : Bool}
  {resolve : Resolve} {doc : Document} {pending : Pending} {m : Modifier}

/-- What a key calls in the first phase is the deletion. -/
theorem lookup_directives {key : String} {invocation : Macro.Invocation} {factory : Macro.Factory}
    (hl : (Registry.builtin space attributes).lookup .directives key = some (invocation, factory)) :
    invocation.definition = deletion ∧ factory = Macro.delete := by
  obtain ⟨r, hmem, hd, rfl, hp⟩ := (Registry.consistsOf_builtin space attributes).mem_of_lookup hl
  obtain rfl := Macro.eq_delete_of_directives hmem hp
  exact ⟨hd.symm, rfl⟩

/-- A key that calls anything in the first phase calls the deletion. -/
theorem deletes_of_lookup {key : String} {found : Macro.Invocation × Macro.Factory}
    (hl : (Registry.builtin space attributes).lookup .directives key = some found) :
    (Registry.builtin space attributes).deletes key = true := by
  obtain ⟨hd, -⟩ := lookup_directives hl
  rw [Registry.deletes, hl]
  exact decide_eq_true hd

/-- The keys that call a macro in the first phase are the deletions. -/
theorem calls_directives (space : String) (attributes : Attributes) (settings : Settings)
    (kindCheck : Bool) :
    (builtin space attributes settings kindCheck).calls .directives
      = (Registry.builtin space attributes).deletes := by
  funext key
  show ((Registry.builtin space attributes).lookup .directives key).isSome = _
  cases hl : (Registry.builtin space attributes).lookup .directives key with
  | none => rw [Registry.deletes, hl]; rfl
  | some found => rw [deletes_of_lookup hl]; rfl

/-! ## The walk -/

/-- The built-in macros bind their modifiers. -/
theorem binds_builtin (space : String) (attributes : Attributes) (settings : Settings)
    (kindCheck : Bool) : (builtin space attributes settings kindCheck).registry.Binds := by
  have hb := Registry.binds_withBuiltins space attributes
  rwa [Registry.value_withBuiltins] at hb

/-- A lenient walk in the first phase collects the deletions, when all are applied to a text or an
object. -/
theorem exists_walk_directives (h : doc.InShape) (hlenient : settings.strict = false)
    (hkinds : ∀ path ∈ doc.toValue.occurrences (Registry.builtin space attributes).deletes,
      ∀ u, doc.toValue.get? path = some u → u.kind = .string ∨ u.kind = .object) :
    ∃ pending, ((builtin space attributes settings false).walkWith resolve .directives doc).value
      = .ok pending := by
  refine exists_walk_of_lenient h hlenient (value_checkKind_false doc)
    fun branch hb key invocation factory hk hl => ?_
  obtain ⟨-, rfl⟩ := lookup_directives hl
  obtain ⟨w, u, hpath, hu, hbranch⟩ := h.get?_of_fieldName? hb hk
  have hocc := (Value.mem_occurrences_iff h.ordered).mpr
    ⟨w, key, hpath, deletes_of_lookup hl, Option.isSome_iff_exists.mpr ⟨u, hu⟩⟩
  have haccepted : branch.kind ∈ [Kind.string, Kind.object] := by
    rw [hbranch, List.mem_pair]
    exact hkinds branch.path hocc u hu
  exact ⟨_, Macro.value_delete_eq_ok_iff.mpr ⟨haccepted, rfl⟩⟩

/-- A modifier of the first phase is bound to a deletion and deletes the wrapper of the key. -/
theorem deletion_of_mem_all (h : doc.InShape)
    (hw : ((builtin space attributes settings kindCheck).walkWith resolve .directives doc).value
      = .ok pending) (hm : m ∈ pending.all) :
    m.instructions = [.delete m.wrapper] ∧
      doc.toValue.Occurs ((Registry.builtin space attributes).deletes · = true) m.path := by
  obtain ⟨branch, hb, hy⟩ := exists_yield_of_mem_all h hw hm
  obtain ⟨key, invocation, factory, hk, hl, hf⟩ := exists_lookup_of_yield hy
  obtain ⟨w, u, hpath, hu, -⟩ := h.get?_of_fieldName? hb hk
  obtain ⟨-, rfl⟩ := lookup_directives hl
  obtain ⟨-, rfl⟩ := Macro.value_delete_eq_ok_iff.mp hf
  exact ⟨rfl, w, key, hpath, deletes_of_lookup hl, Option.isSome_iff_exists.mpr ⟨u, hu⟩⟩

/-! ## The first phase -/

/-- Applying the modifiers of the first phase takes the wrappers of their keys out of the value.
What the modifiers do to the document, they do to the value; and there they are removals. -/
theorem exists_applyAll_of_removeEach? (h : doc.InShape)
    (hw : ((builtin space attributes settings kindCheck).walkWith resolve .directives doc).value
      = .ok pending) {v : Value}
    (hv : Value.removeEach? (pending.inOrder.map Modifier.wrapper) doc.toValue = some v) :
    ∃ doc', (pending.applyAll doc).value = (.ok pending.len, doc') ∧ doc'.toValue = v := by
  have hdeletes : ∀ m ∈ pending.all, m.instructions = [.delete m.wrapper] := fun m hm =>
    (deletion_of_mem_all h hw hm).1
  have hordered : ∀ m ∈ pending.all, m.Ordered := by
    intro m hm
    rw [Modifier.Ordered, hdeletes m hm]
    exact List.forall_mem_singleton.mpr trivial
  have heffect : Modifier.effectEach? pending.inOrder doc.toValue = some v := by
    rw [Modifier.effectEach?_eq_removeEach? fun m hm => hdeletes m (Pending.mem_inOrder.mp hm)]
    exact hv
  obtain ⟨doc', hrun, -, hvalue⟩ := Pending.exists_applyAll_of_effect h hordered heffect
  exact ⟨doc', hrun, hvalue⟩

/-- The wrappers of the modifiers of a walk are the wrappers of the deletions in the document.
Every key has one modifier, so a wrapper is listed once for each deletion that it holds. -/
theorem perm_wrappers (h : doc.InShape)
    (hw : ((builtin space attributes settings kindCheck).walkWith resolve .directives doc).value
      = .ok pending) :
    (pending.inOrder.map Modifier.wrapper).Perm
      (doc.toValue.wrappers (Registry.builtin space attributes).deletes) := by
  have hpaths : (pending.all.map Modifier.path).Perm
      (doc.toValue.occurrences (Registry.builtin space attributes).deletes) := by
    have hp := perm_paths_of_walk (binds_builtin space attributes settings kindCheck) h hw
    rwa [calls_directives] at hp
  have hall := ((pending.perm_inOrder.map Modifier.path).trans hpaths).map List.dropLast
  rwa [List.map_map] at hall

/-- When no object holds two deletions, each deletion spares the wrappers after it. -/
theorem pairwise_wrappers (h : doc.InShape)
    (hw : ((builtin space attributes settings kindCheck).walkWith resolve .directives doc).value
      = .ok pending)
    (hsingle : (doc.toValue.wrappers (Registry.builtin space attributes).deletes).Nodup) :
    (pending.inOrder.map Modifier.wrapper).Pairwise Path.Spares := by
  have hdiffer : (pending.inOrder.map Modifier.wrapper).Nodup :=
    (perm_wrappers h hw).nodup_iff.mpr hsingle
  rw [List.Nodup, List.pairwise_map] at hdiffer
  rw [List.pairwise_map]
  refine (pending.pairwise_inOrder.and hdiffer).imp_of_mem fun {a b} ha hb hab => ?_
  obtain ⟨-, w, name, hpath, -⟩ := deletion_of_mem_all h hw (Pending.mem_inOrder.mp ha)
  obtain ⟨-, w', name', hpath', -⟩ := deletion_of_mem_all h hw (Pending.mem_inOrder.mp hb)
  obtain ⟨hbefore, hne⟩ := hab
  rw [Modifier.wrapper_of_path hpath, Modifier.wrapper_of_path hpath'] at hne ⊢
  exact Modifier.spares_of_runsBefore hpath hpath' rfl hbefore hne

/-- When the root holds no deletion, no object holds two, and each is applied to a text or an
object, the first phase takes out the fields and elements that are objects with a deletion, and
nothing else. -/
theorem directives_prune (hr : doc.Reachable) (hlenient : settings.strict = false)
    (hroot : doc.toValue.holds (Registry.builtin space attributes).deletes = false)
    (hkinds : ∀ path ∈ doc.toValue.occurrences (Registry.builtin space attributes).deletes,
      ∀ u, doc.toValue.get? path = some u → u.kind = .string ∨ u.kind = .object)
    (hsingle : (doc.toValue.wrappers (Registry.builtin space attributes).deletes).Nodup) :
    ∃ pending doc',
      ((builtin space attributes settings false).walk .directives doc).value = .ok pending ∧
      (pending.applyAll doc).value = (.ok pending.len, doc') ∧
      doc'.toValue = doc.toValue.prune (Registry.builtin space attributes).deletes := by
  have h := hr.inShape
  obtain ⟨pending, hw⟩ : ∃ pending,
      ((builtin space attributes settings false).walk .directives doc).value = .ok pending :=
    exists_walk_directives h hlenient hkinds
  have hleft : Value.removeEach? (pending.inOrder.map Modifier.wrapper) doc.toValue
      = some (doc.toValue.prune (Registry.builtin space attributes).deletes) :=
    Value.removeEach?_eq_prune h.ordered hroot (perm_wrappers h hw) (pairwise_wrappers h hw hsingle)
  obtain ⟨doc', hrun, hvalue⟩ := exists_applyAll_of_removeEach? h hw hleft
  exact ⟨pending, doc', hw, hrun, hvalue⟩

/-- Wrappers in a field, in an array, and below the key of another one. -/
theorem directives_prune_nested :
    let settings : Settings := {}
    let doc := Document.ofValue (.object
      [("a", .object [("k.Null.Delete", .string "")]),
       ("b", .array
        [.object [("k.Null.Delete", .string "")],
         .object [("keep", .null)],
         .object [("k.Null.Delete", .object
          [("c", .object [("k.Null.Delete(d)", .string "")])])]])])
    ∃ pending doc',
      ((builtin "k" [] settings false).walk .directives doc).value = .ok pending ∧
      (pending.applyAll doc).value = (.ok pending.len, doc') ∧
      doc'.toValue = .object [("b", .array [.object [("keep", .null)]])] := by
  intro settings doc
  -- Most objects here have a single field, so there is nothing to order in them.
  have hone : ∀ name v, v.Ordered → (Value.object [(name, v)]).Ordered := fun _ _ hv =>
    ⟨List.pairwise_singleton _ _, hv, trivial⟩
  have hr : doc.Reachable := .ofValue ⟨List.pairwise_pair.mpr (by decide), hone _ _ trivial,
    ⟨hone _ _ trivial, hone _ _ trivial, hone _ _ (hone _ _ (hone _ _ trivial)), trivial⟩, trivial⟩
  have hroot : doc.toValue.holds (Registry.builtin "k" []).deletes = false := by
    decide +kernel
  have hkinds : ∀ path ∈ doc.toValue.occurrences (Registry.builtin "k" []).deletes,
      ∀ u, doc.toValue.get? path = some u → u.kind = .string ∨ u.kind = .object := by
    decide +kernel
  have hsingle : (doc.toValue.wrappers (Registry.builtin "k" []).deletes).Nodup := by
    decide +kernel
  -- What is left is computed from the value.
  have hpruned : doc.toValue.prune (Registry.builtin "k" []).deletes
      = .object [("b", .array [.object [("keep", .null)]])] := by
    decide +kernel
  have hlenient : settings.strict = false := rfl
  obtain ⟨pending, doc', hw, hrun, hvalue⟩ := directives_prune hr hlenient hroot hkinds hsingle
  exact ⟨pending, doc', hw, hrun, hvalue.trans hpruned⟩

/-- An element with two deletions is deleted twice, and the second time it is the element after it
that goes. -/
theorem directives_delete_twice :
    let settings : Settings := {}
    let doc := Document.ofValue (.object
      [("l", .array
        [.object [("kubegen.Null.Delete(a)", .string ""), ("kubegen.Null.Delete(b)", .string "")],
         .object [("keep", .whole 1)]])])
    let deletes := (Registry.builtin "kubegen" []).deletes
    doc.Reachable ∧ doc.toValue.holds deletes = false ∧
      (∀ path ∈ doc.toValue.occurrences deletes,
        ∀ u, doc.toValue.get? path = some u → u.kind = .string ∨ u.kind = .object) ∧
      doc.toValue.prune deletes = .object [("l", .array [.object [("keep", .whole 1)]])] ∧
      ∃ pending doc',
        ((builtin "kubegen" [] settings false).walk .directives doc).value = .ok pending ∧
        (pending.applyAll doc).value = (.ok 2, doc') ∧
        doc'.toValue = .object [("l", .array [])] := by
  intro settings doc deletes
  have hr : doc.Reachable := by
    refine .ofValue ⟨List.pairwise_singleton _ _, ⟨⟨?_, trivial, trivial, trivial⟩, ?_, trivial⟩,
      trivial⟩
    · exact List.pairwise_pair.mpr (by decide)
    · exact ⟨List.pairwise_singleton _ _, trivial, trivial⟩
  have hkinds : ∀ path ∈ doc.toValue.occurrences deletes,
      ∀ u, doc.toValue.get? path = some u → u.kind = .string ∨ u.kind = .object := by
    decide +kernel
  refine ⟨hr, by decide +kernel, hkinds, by decide +kernel, ?_⟩
  obtain ⟨pending, hw⟩ : ∃ pending,
      ((builtin "kubegen" [] settings false).walk .directives doc).value = .ok pending :=
    exists_walk_directives hr.inShape rfl hkinds
  have hperm := perm_wrappers hr.inShape hw
  -- Both modifiers have the first element as their wrapper.
  have hwrappers : doc.toValue.wrappers deletes = List.replicate 2 [.field "l", .index 0] := by
    decide +kernel
  have horder : pending.inOrder.map Modifier.wrapper = List.replicate 2 [.field "l", .index 0] :=
    List.perm_replicate.mp (hwrappers ▸ hperm)
  have hleft : Value.removeEach? (pending.inOrder.map Modifier.wrapper) doc.toValue
      = some (.object [("l", .array [])]) := by
    rw [horder]
    decide +kernel
  have hlen : pending.len = 2 := by
    rw [← pending.length_inOrder, ← List.length_map Modifier.wrapper, horder,
      List.length_replicate]
  obtain ⟨doc', hrun, hvalue⟩ := exists_applyAll_of_removeEach? hr.inShape hw hleft
  exact ⟨pending, doc', hw, hlen ▸ hrun, hvalue⟩

end Evaluator

end Expansion
