import Expansion.Proofs.Macro.Collection

/-!
  The order of execution depends on what is registered, and on nothing else.

  A modifier is filed under the text of its path, and the text tells the path.  So after any number
  of registrations the last modifier at each path is pending, and no other (`mem_all_insertAll_iff`,
  by induction on the registrations).  The paths of what is pending differ, and of two paths that
  differ one precedes the other (`Path.Precedes`): there are no ties, so a table that yields its
  modifiers in another order makes no difference once they are sorted (`mergeSort_eq_inOrder`).
-/

namespace Expansion

/-! ## Which of two paths precedes -/

/-- A name is before a position; names are in the order of their code points, positions in that of
numbers. -/
def Key.Before : Key → Key → Prop
  | field a, field b => a < b
  | field _, index _ => True
  | index _, field _ => False
  | index i, index j => i < j

/-- The longer path precedes, and of two paths of one length the one with the later key, at the
first place where their keys differ. -/
def Path.Precedes (p q : Path) : Prop :=
  q.length < p.length ∨
    p.length = q.length ∧ ∃ before k k' rest rest',
      p = before ++ k :: rest ∧ q = before ++ k' :: rest' ∧ k'.Before k

/-- What compares as less is before. -/
theorem Key.before_of_cmp {a b : Key} (h : a.cmp b = .lt) : a.Before b := by
  cases a with
  | field name =>
    cases b with
    | field other =>
      have hlt : compareOfLessAndEq name other = .lt := h
      rw [compareOfLessAndEq] at hlt
      split at hlt
      · assumption
      · split at hlt <;> cases hlt
    | index j => trivial
  | index i =>
    cases b with
    | field other => cases h
    | index j => exact Nat.compare_eq_lt.mp h

/-- Of two paths of one length, the greater has the later key where they first differ.  By induction
on the paths, both at once. -/
theorem Path.exists_before_of_cmp {p q : Path} (hlen : p.length = q.length) (h : p.cmp q = .gt) :
    ∃ before k k' rest rest', p = before ++ k :: rest ∧ q = before ++ k' :: rest' ∧
      k'.Before k := by
  induction p generalizing q with
  | nil =>
    cases q with
    | nil => cases h
    | cons b q => cases hlen
  | cons a p ih =>
    cases q with
    | nil => cases hlen
    | cons b q =>
      rw [Path.cmp] at h
      -- The first keys decide, unless they are the same.
      cases hab : a.cmp b with
      | lt =>
        rw [hab] at h
        cases h
      | gt =>
        have hba : b.cmp a = .lt := Std.OrientedCmp.lt_of_gt hab
        exact ⟨[], a, b, p, q, rfl, rfl, Key.before_of_cmp hba⟩
      | eq =>
        rw [hab] at h
        obtain rfl := Key.eq_of_cmp hab
        obtain ⟨before, k, k', rest, rest', rfl, rfl, hk⟩ := ih (Nat.succ.inj hlen) h
        exact ⟨a :: before, k, k', rest, rest', rfl, rfl, hk⟩

/-- No path that is above another precedes it. -/
theorem Path.Precedes.not_above {p q : Path} (h : p.Precedes q) (hne : p ≠ q) : ¬ p <+: q := by
  intro hpre
  rcases h with hlt | ⟨hlen, -⟩
  · exact absurd hpre.length_le (Nat.not_le_of_lt hlt)
  · exact hne (hpre.eq_of_length hlen)

/-- A modifier that runs before one at another path is at the path that precedes. -/
theorem Modifier.precedes_of_runsBefore {a b : Modifier} (h : a.runsBefore b = true)
    (hne : a.path ≠ b.path) : a.path.Precedes b.path := by
  rcases runsBefore_iff.mp h with hlt | ⟨hlen, hcmp⟩
  · exact Or.inl hlt
  · refine Or.inr ⟨hlen, Path.exists_before_of_cmp hlen ?_⟩
    cases hab : a.path.cmp b.path with
    | lt => exact absurd hab hcmp
    | eq => exact absurd (Path.eq_of_cmp hab) hne
    | gt => rfl

/-! ## What is pending after registrations -/

/-- The last of the modifiers at a path. -/
def Modifier.lastAt? (ms : List Modifier) (path : Path) : Option Modifier :=
  ms.reverse.find? fun m => m.path = path

/-- A modifier is the last at its path when none of the later ones is at the path. -/
theorem Modifier.lastAt?_cons (m : Modifier) (rest : List Modifier) (path : Path) :
    lastAt? (m :: rest) path = (lastAt? rest path).or (if m.path = path then some m else none) := by
  have hone : [m].find? (fun m => m.path = path) = if m.path = path then some m else none := by
    by_cases hp : m.path = path
    · rw [if_pos hp, List.find?_cons_of_pos (by simpa using hp)]
    · rw [if_neg hp, List.find?_cons_of_neg (by simpa using hp), List.find?_nil]
  rw [lastAt?, lastAt?, List.reverse_cons, List.find?_append, hone]

namespace Pending

variable {pending : Pending} {m : Modifier} {ms : List Modifier}

/-- Registers modifiers one after the other. -/
def insertAll : List Modifier → Pending → Logged Pending
  | [], pending => pure pending
  | m :: rest, pending => do insertAll rest (← pending.insert m).2

/-- The first modifier is added, then the others. -/
theorem value_insertAll_cons (m : Modifier) (rest : List Modifier) (pending : Pending) :
    (insertAll (m :: rest) pending).value = (insertAll rest (pending.add m)).value := by
  rw [insertAll, Logged.value_bind, value_insert]

/-- The modifier at a path is the one added, at its own path, and elsewhere the one before. -/
theorem get?_add (m : Modifier) (pending : Pending) (path : Path) :
    (pending.add m).get? path.text = if m.path = path then some m else pending.get? path.text := by
  by_cases hp : m.path = path
  · rw [if_pos hp, ← hp]
    exact Fields.find?_insert_self m.text m pending.modifiers
  · have htext : path.text ≠ m.text := fun heq => hp (Path.text_injective heq).symm
    rw [if_neg hp]
    exact Fields.find?_insert_of_ne htext m pending.modifiers

/-- At each path the last registration counts. -/
theorem get?_insertAll (ms : List Modifier) (pending : Pending) (path : Path) :
    (insertAll ms pending).value.get? path.text
      = (Modifier.lastAt? ms path).or (pending.get? path.text) := by
  induction ms generalizing pending with
  | nil => rfl
  | cons m rest ih =>
    rw [value_insertAll_cons, ih, get?_add, Modifier.lastAt?_cons]
    cases Modifier.lastAt? rest path with
    | some last => rfl
    | none => by_cases hp : m.path = path <;> simp only [hp, if_true, if_false] <;> rfl

/-- Registrations file modifiers under their own texts. -/
theorem Filed.insertAll (h : pending.Filed) (ms : List Modifier) :
    (insertAll ms pending).value.Filed := by
  induction ms generalizing pending with
  | nil => exact h
  | cons m rest ih =>
    rw [value_insertAll_cons]
    exact ih (h.add m)

/-- Registrations keep the texts in order. -/
theorem Ordered.insertAll (h : pending.Ordered) (ms : List Modifier) :
    (insertAll ms pending).value.Ordered := by
  induction ms generalizing pending with
  | nil => exact h
  | cons m rest ih =>
    rw [value_insertAll_cons]
    exact ih (h.add m)

/-- A modifier is pending when it is the one that is filed for its path. -/
theorem mem_all_iff_get? (hf : pending.Filed) (ho : pending.Ordered) :
    m ∈ pending.all ↔ pending.get? m.text = some m := by
  constructor
  · intro hm
    obtain ⟨⟨name, m⟩, he, rfl⟩ := List.mem_map.mp hm
    obtain rfl : name = m.text := hf _ he
    exact ho.find?_of_mem he
  · intro hm
    exact List.mem_map.mpr ⟨_, Fields.mem_of_find? hm, rfl⟩

/-- What is registered is filed under its own text. -/
theorem filed_insertAll_empty (ms : List Modifier) : (insertAll ms {}).value.Filed :=
  filed_empty.insertAll ms

/-- What is registered is in order of text. -/
theorem ordered_insertAll_empty (ms : List Modifier) : (insertAll ms {}).value.Ordered := by
  have hempty : Pending.Ordered {} := List.Pairwise.nil
  exact hempty.insertAll ms

/-- Of the modifiers that were registered, the last at each path are pending. -/
theorem mem_all_insertAll_iff :
    m ∈ (insertAll ms {}).value.all ↔ Modifier.lastAt? ms m.path = some m := by
  have hnone : ({} : Pending).get? m.path.text = none := rfl
  rw [mem_all_iff_get? (filed_insertAll_empty ms) (ordered_insertAll_empty ms), Modifier.text,
    get?_insertAll, hnone, Option.or_none]

/-- With modifiers at different paths, all are pending.  Each of them is the last one at its path,
as it is the only one. -/
theorem perm_all_insertAll (h : (ms.map Modifier.path).Nodup) :
    (insertAll ms {}).value.all.Perm ms := by
  have hnodup : (insertAll ms {}).value.all.Nodup :=
    ((filed_insertAll_empty ms).nodup_paths (ordered_insertAll_empty ms)).of_map
  refine (List.perm_ext_iff_of_nodup hnodup h.of_map).mpr fun m => ?_
  rw [mem_all_insertAll_iff]
  constructor
  · intro hlast
    exact List.mem_reverse.mp (List.mem_of_find?_eq_some hlast)
  · intro hm
    cases hlast : Modifier.lastAt? ms m.path with
    | none =>
      have hno := List.find?_eq_none.mp hlast m (List.mem_reverse.mpr hm)
      exact absurd (decide_eq_true rfl) hno
    | some last =>
      have hpath : last.path = m.path := by simpa using List.find?_some hlast
      have hin := List.mem_reverse.mp (List.mem_of_find?_eq_some hlast)
      rw [List.inj_on_of_nodup_map h hin hm hpath]

/-! ## Sorting -/

/-- What is pending, sorted, is in the order of execution, in whatever order it is given. -/
theorem mergeSort_eq_inOrder (hf : pending.Filed) (ho : pending.Ordered) {values : List Modifier}
    (h : values.Perm pending.all) : values.mergeSort Modifier.runsBefore = pending.inOrder := by
  have hperm : (values.mergeSort Modifier.runsBefore).Perm pending.inOrder :=
    (List.mergeSort_perm values _).trans (h.trans pending.perm_inOrder.symm)
  have hnodup := hf.nodup_inOrder ho
  have hmem : ∀ m ∈ values.mergeSort Modifier.runsBefore, m ∈ pending.all := fun m hm =>
    h.mem_iff.mp (List.mem_mergeSort.mp hm)
  refine Modifier.eq_of_mem_iff
    (List.pairwise_mergeSort Modifier.runsBefore_trans Modifier.runsBefore_total values)
    pending.pairwise_inOrder (hperm.nodup_iff.mpr hnodup) hnodup (fun a ha b hb hp => ?_)
    fun m => hperm.mem_iff
  exact hf.eq_of_path_eq ho (hmem a ha) (hmem b hb) hp

/-- Of two modifiers in the order of execution, the first is at the path that precedes. -/
theorem pairwise_precedes (hf : pending.Filed) (ho : pending.Ordered) :
    pending.inOrder.Pairwise fun a b => a.path.Precedes b.path := by
  have hpaths : (pending.inOrder.map Modifier.path).Nodup :=
    (pending.perm_inOrder.map Modifier.path).nodup_iff.mpr (hf.nodup_paths ho)
  have hne := List.pairwise_map.mp hpaths
  exact (pending.pairwise_inOrder.and hne).imp fun ⟨hab, hne⟩ =>
    Modifier.precedes_of_runsBefore hab hne

/-- A modifier at a path above that of another one runs after it. -/
theorem mem_after_of_above (hf : pending.Filed) (ho : pending.Ordered)
    {before after : List Modifier} (hs : pending.inOrder = before ++ m :: after) {m' : Modifier}
    (hm : m' ∈ pending.inOrder) (hpre : m'.path <+: m.path) (hne : m'.path ≠ m.path) :
    m' ∈ after := by
  have hsorted := pairwise_precedes hf ho
  rw [hs] at hm hsorted
  rcases List.mem_append.mp hm with hin | hin
  · have hfirst := (List.pairwise_append.mp hsorted).2.2 m' hin m List.mem_cons_self
    exact absurd hpre (hfirst.not_above hne)
  · rcases List.mem_cons.mp hin with rfl | hin
    · exact absurd rfl hne
    · exact hin

/-- After any registrations, the order of execution holds the last modifier at each path, once, and
nothing else.  It is strict: a modifier is at a longer path than the next, or at one of the same
length that has the later key where the two first differ; so it runs before all modifiers at paths
above its own.  It is the order into which what is pending is sorted from whatever order a table
gives it in.  Registrations that agree on the last modifier at each path lead to one order, and to
the same run over every document: one answer, one document and one journal. -/
theorem inOrder_exact (ms : List Modifier) :
    let pending := (insertAll ms {}).value
    pending.inOrder.Nodup ∧
      (∀ m, m ∈ pending.inOrder ↔ Modifier.lastAt? ms m.path = some m) ∧
      (pending.inOrder.Pairwise fun a b => a.path.Precedes b.path) ∧
      (∀ before m after, pending.inOrder = before ++ m :: after →
        ∀ m' ∈ pending.inOrder, m'.path <+: m.path → m'.path ≠ m.path → m' ∈ after) ∧
      (∀ values : List Modifier, values.Perm pending.all →
        values.mergeSort Modifier.runsBefore = pending.inOrder) ∧
      ∀ more, (∀ path, Modifier.lastAt? more path = Modifier.lastAt? ms path) →
        let other := (insertAll more {}).value
        other.inOrder = pending.inOrder ∧ ∀ doc, other.applyAll doc = pending.applyAll doc := by
  intro pending
  have hf : pending.Filed := filed_insertAll_empty ms
  have ho : pending.Ordered := ordered_insertAll_empty ms
  refine ⟨hf.nodup_inOrder ho, fun m => mem_inOrder.trans mem_all_insertAll_iff,
    pairwise_precedes hf ho, fun before m after hs m' hm => mem_after_of_above hf ho hs hm,
    fun values => mergeSort_eq_inOrder hf ho, fun more hmore => ?_⟩
  intro other
  have hf' : other.Filed := filed_insertAll_empty more
  have ho' : other.Ordered := ordered_insertAll_empty more
  -- What is pending, and so what runs, is determined by the last modifiers; the order leaves no
  -- choice.
  have hmem : ∀ m, m ∈ other.inOrder ↔ m ∈ pending.inOrder := by
    intro m
    rw [mem_inOrder, mem_inOrder, mem_all_insertAll_iff, mem_all_insertAll_iff, hmore]
  have horder : other.inOrder = pending.inOrder :=
    Modifier.eq_of_mem_iff other.pairwise_inOrder pending.pairwise_inOrder (hf'.nodup_inOrder ho')
      (hf.nodup_inOrder ho)
      (fun a ha b hb => hf'.eq_of_path_eq ho' (mem_inOrder.mp ha) (mem_inOrder.mp hb)) hmem
  have hlen : other.len = pending.len := by
    rw [← other.length_inOrder, ← pending.length_inOrder, horder]
  refine ⟨horder, fun doc => ?_⟩
  rw [applyAll, applyAll, horder, hlen]

/-- Elements are in the order of numbers, not of texts; the list comes after them, and of the two
modifiers at one element the last one counts. -/
theorem inOrder_exact_elements :
    let deletion (name : String) (path : Path) : Modifier := ⟨path, name, [.delete path]⟩
    let list := deletion "list" [.field "l"]
    let ninth := deletion "ninth" [.field "l", .index 9]
    let tenth := deletion "tenth" [.field "l", .index 10]
    let replaced := deletion "replaced" [.field "l", .index 10]
    let pending := (insertAll [list, replaced, ninth, tenth] {}).value
    let other := (insertAll [tenth, ninth, list] {}).value
    pending.inOrder = [tenth, ninth, list] ∧
      ∀ doc, other.applyAll doc = pending.applyAll doc := by
  intro deletion list ninth tenth replaced pending other
  obtain ⟨-, -, -, -, -, hagree⟩ := inOrder_exact [list, replaced, ninth, tenth]
  have hlast : ∀ path, Modifier.lastAt? [tenth, ninth, list] path
      = Modifier.lastAt? [list, replaced, ninth, tenth] path := by
    intro path
    simp only [Modifier.lastAt?_cons]
    -- By the path: the element that was registered twice, the list, or any other.
    by_cases htenth : tenth.path = path
    · subst htenth
      rfl
    · have hreplaced : ¬replaced.path = path := htenth
      rw [if_neg htenth, if_neg hreplaced]
      by_cases hlist : list.path = path
      · subst hlist
        rfl
      · simp only [hlist, if_false, Option.or_none]
  obtain ⟨horder, hrun⟩ := hagree _ hlast
  -- With one modifier for each path, the order is that of a list which is already sorted.
  have hpaths : ([tenth, ninth, list].map Modifier.path).Nodup := by decide +kernel
  have hsorted : [tenth, ninth, list].Pairwise fun a b => a.runsBefore b = true := by
    decide +kernel
  refine ⟨?_, hrun⟩
  rw [← horder, ← mergeSort_eq_inOrder (filed_insertAll_empty _) (ordered_insertAll_empty _)
    (perm_all_insertAll hpaths).symm]
  exact List.mergeSort_of_pairwise hsorted

end Pending

end Expansion
