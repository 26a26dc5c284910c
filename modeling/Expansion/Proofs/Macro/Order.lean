import Expansion.Macro.Modifier
import Expansion.Proofs.Fields
import Expansion.Proofs.Path
import Expansion.Proofs.Text.Quoted
import Mathlib.Data.List.Pairwise

/-!
  The modifiers of a walk and their order.

  Modifiers are filed by the text of their path, which determines the path: so a modifier takes the
  place of another one only at the same path, and no path is lost (`Pending.At.add`).  `runsBefore`
  is total and transitive, hence the order of execution is sorted by it: deeper paths first, and of
  paths that part at an array the later element first (`Pending.pairwise_inOrder`,
  `Modifier.not_runsBefore`).
-/

namespace Expansion

namespace Modifier

/-- A modifier runs before another one when its path is longer, or as long and not less. -/
theorem runsBefore_iff {a b : Modifier} :
    a.runsBefore b = true ↔
      b.path.length < a.path.length ∨
        (a.path.length = b.path.length ∧ a.path.cmp b.path ≠ .lt) := by
  unfold runsBefore
  split <;> rename_i h <;> simp [h]

/-- Of two modifiers, one runs before the other. -/
theorem runsBefore_total (a b : Modifier) : (a.runsBefore b || b.runsBefore a) = true := by
  rw [Bool.or_eq_true, runsBefore_iff, runsBefore_iff]
  rcases Nat.lt_trichotomy a.path.length b.path.length with h | h | h
  · exact Or.inr (Or.inl h)
  · by_cases hab : a.path.cmp b.path = .lt
    · have hba : b.path.cmp a.path = .gt := Std.OrientedCmp.gt_of_lt hab
      exact Or.inr (Or.inr ⟨h.symm, by simp [hba]⟩)
    · exact Or.inl (Or.inr ⟨h, hab⟩)
  · exact Or.inl (Or.inl h)

/-- Running before is transitive, by the lengths and, among paths of one length, by their order. -/
theorem runsBefore_trans (a b c : Modifier) (hab : a.runsBefore b = true)
    (hbc : b.runsBefore c = true) : a.runsBefore c = true := by
  rw [runsBefore_iff] at hab hbc ⊢
  rcases hab with hab | ⟨hab, hle⟩ <;> rcases hbc with hbc | ⟨hbc, hle'⟩
  · omega
  · omega
  · omega
  · refine Or.inr ⟨hab.trans hbc, ?_⟩
    have hge : (a.path.cmp c.path).isGE := Std.TransCmp.isGE_trans
      (Ordering.isGE_iff_ne_lt.mpr hle) (Ordering.isGE_iff_ne_lt.mpr hle')
    exact Ordering.isGE_iff_ne_lt.mp hge

/-- Only modifiers at one path run before each other. -/
theorem path_eq_of_runsBefore {a b : Modifier} (hab : a.runsBefore b = true)
    (hba : b.runsBefore a = true) : a.path = b.path := by
  rcases runsBefore_iff.mp hab with hlt | ⟨hlen, hle⟩
  · rcases runsBefore_iff.mp hba with h | ⟨h, -⟩ <;> omega
  · rcases runsBefore_iff.mp hba with h | ⟨-, hge⟩
    · omega
    · refine Path.eq_of_cmp ?_
      cases hcmp : a.path.cmp b.path with
      | eq => rfl
      | lt => exact absurd hcmp hle
      | gt => exact absurd (Std.OrientedCmp.lt_of_gt hcmp) hge

/-- The order of execution is determined by what is executed. -/
theorem eq_of_mem_iff {ms more : List Modifier}
    (hs : ms.Pairwise fun a b => a.runsBefore b = true)
    (hs' : more.Pairwise fun a b => a.runsBefore b = true) (hn : ms.Nodup) (hn' : more.Nodup)
    (hp : ∀ a ∈ ms, ∀ b ∈ ms, a.path = b.path → a = b) (hm : ∀ m, m ∈ ms ↔ m ∈ more) :
    ms = more := by
  have hperm : ms.Perm more := (List.perm_ext_iff_of_nodup hn hn').mpr hm
  refine hperm.eq_of_pairwise (fun a b ha hb hab hba => ?_) hs hs'
  exact hp a ha b ((hm b).mpr hb) (path_eq_of_runsBefore hab hba)

/-- What lies behind a later element of an array runs before what is in an earlier one, when both
are as deep. -/
theorem not_runsBefore {a b : Modifier} {p q r : Path} {i j : Nat} (hij : i < j)
    (ha : a.path = p ++ .index i :: q) (hb : b.path = p ++ .index j :: r)
    (hlen : a.path.length ≤ b.path.length) : a.runsBefore b = false := by
  rw [Bool.eq_false_iff, Ne, runsBefore_iff]
  rintro (h | ⟨-, h⟩)
  · omega
  · -- At the same depth the paths compare by the first index in which they differ.
    refine h ?_
    rw [ha, hb, Path.cmp_append, Path.cmp, Key.cmp, Nat.compare_eq_lt.mpr hij]
    rfl

end Modifier

/-! ## Pending modifiers -/

namespace Pending

variable {pending : Pending} {modifier : Modifier} {path : Path}

/-- Every modifier is filed under the text of its path. -/
def Filed (pending : Pending) : Prop := ∀ entry ∈ pending.modifiers, entry.1 = entry.2.text

/-- The modifiers that are pending. -/
def all (pending : Pending) : List Modifier := pending.modifiers.map (·.2)

/-- What is pending after an addition is what is added, or was pending before. -/
theorem mem_all_add {other : Modifier} (h : modifier ∈ (pending.add other).all) :
    modifier = other ∨ modifier ∈ pending.all := by
  obtain ⟨entry, he, rfl⟩ := List.mem_map.mp h
  rcases Fields.mem_insert he with rfl | he
  · exact Or.inl rfl
  · exact Or.inr (List.mem_map.mpr ⟨entry, he, rfl⟩)

/-- What is added is filed under its own text. -/
theorem Filed.add (h : pending.Filed) (modifier : Modifier) : (pending.add modifier).Filed := by
  intro entry he
  rcases Fields.mem_insert he with rfl | he
  · rfl
  · exact h entry he

/-- The texts under which the modifiers are filed are in order. -/
def Ordered (pending : Pending) : Prop := Fields.Ordered pending.modifiers

/-- An addition keeps the texts in order. -/
theorem Ordered.add (h : pending.Ordered) (modifier : Modifier) :
    (pending.add modifier).Ordered :=
  Fields.Ordered.insert h modifier.text modifier

/-- At each path there is one modifier. -/
theorem Filed.eq_of_path_eq (h : pending.Filed) (ho : pending.Ordered) {m m' : Modifier}
    (hm : m ∈ pending.all) (hm' : m' ∈ pending.all) (hp : m.path = m'.path) : m = m' := by
  obtain ⟨⟨name, m⟩, he, rfl⟩ := List.mem_map.mp hm
  obtain ⟨⟨name', m'⟩, he', rfl⟩ := List.mem_map.mp hm'
  have htext : m.text = m'.text := congrArg Path.text hp
  obtain rfl : name = name' := (h _ he).trans (htext.trans (h _ he').symm)
  exact Option.some.inj ((ho.find?_of_mem he).symm.trans (ho.find?_of_mem he'))

/-- The paths at which a modifier is pending. -/
def At (pending : Pending) (path : Path) : Prop := ∃ modifier ∈ pending.all, modifier.path = path

/-- At the path of what is added a modifier is pending. -/
theorem at_add_self (modifier : Modifier) (pending : Pending) :
    (pending.add modifier).At modifier.path :=
  ⟨modifier, List.mem_map.mpr ⟨_, Fields.mem_insert_self _ _ _, rfl⟩, rfl⟩

/-- A modifier that takes the place of another one is at the same path, so no path is lost. -/
theorem At.add (hf : pending.Filed) (h : pending.At path) (modifier : Modifier) :
    (pending.add modifier).At path := by
  obtain ⟨m, hm, rfl⟩ := h
  obtain ⟨entry, he, rfl⟩ := List.mem_map.mp hm
  -- Modifiers are filed by text; texts that agree are those of one path.
  by_cases ht : entry.1 = modifier.text
  · have hp : entry.2.path = modifier.path := Path.text_injective ((hf entry he).symm.trans ht)
    rw [hp]
    exact at_add_self modifier pending
  · exact ⟨entry.2, List.mem_map.mpr ⟨entry, Fields.mem_insert_of_ne ht he, rfl⟩, rfl⟩

/-- The modifiers that run are those that are pending. -/
theorem perm_inOrder (pending : Pending) : pending.inOrder.Perm pending.all :=
  List.mergeSort_perm _ _

theorem mem_inOrder : modifier ∈ pending.inOrder ↔ modifier ∈ pending.all :=
  pending.perm_inOrder.mem_iff

/-- A single modifier needs no order. -/
theorem inOrder_of_eq_singleton {name : String} (h : pending.modifiers = [(name, modifier)]) :
    pending.inOrder = [modifier] := by
  rw [inOrder, h, List.map_singleton, List.mergeSort_singleton]

/-- All that is pending runs. -/
theorem length_inOrder (pending : Pending) : pending.inOrder.length = pending.len := by
  rw [inOrder, List.length_mergeSort, List.length_map]
  rfl

/-- The modifiers run in order. -/
theorem pairwise_inOrder (pending : Pending) :
    pending.inOrder.Pairwise fun a b => a.runsBefore b = true :=
  List.pairwise_mergeSort Modifier.runsBefore_trans Modifier.runsBefore_total _

/-- Modifiers of different depths run as they stand when they stand deepest first. -/
theorem inOrder_eq_of_deepest_first {ms : List Modifier} (hperm : ms.Perm pending.all)
    (hdepth : ms.Pairwise fun a b => b.path.length < a.path.length) : pending.inOrder = ms := by
  -- Modifiers of different depths are at different paths, so the order among them is strict.
  have hdiffer : ms.Pairwise fun a b => a.path.length ≠ b.path.length := hdepth.imp Nat.ne_of_gt
  have hsymm : Std.Symm fun a b : Modifier => a.path.length ≠ b.path.length :=
    ⟨fun _ _ h => h.symm⟩
  have hnodup : ms.Nodup := hdiffer.imp fun hne heq => hne (congrArg (·.path.length) heq)
  have hsame : ∀ a ∈ ms, ∀ b ∈ ms, a.path = b.path → a = b := fun a ha b hb hpath =>
    Classical.byContradiction fun hne => hdiffer.forall ha hb hne (congrArg List.length hpath)
  refine (Modifier.eq_of_mem_iff (hdepth.imp fun hlt => Modifier.runsBefore_iff.mpr (Or.inl hlt))
    pending.pairwise_inOrder hnodup ?_ hsame fun m => ?_).symm
  · exact (pending.perm_inOrder.trans hperm.symm).nodup_iff.mpr hnodup
  · exact hperm.mem_iff.trans mem_inOrder.symm

/-- No modifier runs twice. -/
theorem Filed.nodup_inOrder (h : pending.Filed) (ho : pending.Ordered) : pending.inOrder.Nodup := by
  have hall : pending.all.Nodup := by
    refine List.pairwise_map.mpr (List.Pairwise.imp_of_mem (fun {a b} ha hb hlt heq => ?_) ho)
    have hname : a.1 = b.1 := by rw [h a ha, h b hb, heq]
    exact String.lt_irrefl _ (hname ▸ hlt)
  exact pending.perm_inOrder.nodup_iff.mpr hall

/-- Nothing is pending when there is no modifier. -/
theorem isEmpty_iff : pending.isEmpty = true ↔ pending.all = [] := by
  simp [isEmpty, all]

/-- Something is pending when something is to be run. -/
theorem isEmpty_eq_false_iff : pending.isEmpty = false ↔ pending.inOrder ≠ [] := by
  rw [Bool.eq_false_iff, Ne, isEmpty_iff, List.eq_nil_iff_forall_not_mem, Ne,
    List.eq_nil_iff_forall_not_mem]
  simp only [mem_inOrder]

end Pending

end Expansion
