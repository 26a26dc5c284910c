import Expansion.Proofs.Value.Field

/-!
  Taking fields out of an object and merging values in.

  `keep` leaves the fields of some names only.  Merging commutes with it when the source has no
  other names (`keep_merge`).  So when fields are taken out one by one, and after each a value is
  merged in that has none of their names, the order of the two does not matter: all may be taken out
  first, and the values merged in after that (`foldlM_takeMerge`, by induction on the fields to take
  out).
-/

namespace Expansion

namespace Fields

variable {α : Type} {fields : Fields α} {name : String}

/-- Among the entries that stay, a name is found when it stays and was found before. -/
theorem find?_filter (stays : String → Bool) (name : String) (fields : Fields α) :
    find? name (fields.filter fun entry => stays entry.1)
      = if stays name then find? name fields else none := by
  induction fields with
  | nil => simp
  | cons entry rest ih =>
    obtain ⟨key, a⟩ := entry
    by_cases hname : key = name
    · subst hname
      cases hkey : stays key with
      | true => simp [hkey, find?]
      | false => simp [hkey, ih]
    · cases hkey : stays key with
      | true => simp [hkey, find?, hname, ih]
      | false => simp [hkey, find?, hname, ih]

/-- Erasing an entry keeps those of other names.  This holds in order only, where one entry has the
name. -/
theorem Ordered.erase_eq_filter (h : Ordered fields) (name : String) :
    Fields.erase name fields = fields.filter fun entry => entry.1 != name := by
  have hfiltered : Ordered (fields.filter fun entry => entry.1 != name) := List.Pairwise.filter _ h
  refine (h.erase name).ext hfiltered fun other => ?_
  rw [find?_filter (· != name)]
  by_cases hother : other = name
  · subst hother
    simp [h.find?_erase_self]
  · simp [hother, find?_erase_of_ne hother]

end Fields

namespace Value

variable {v source : Value} {stays : String → Bool}

/-- The value without the fields of other names. -/
def keep (stays : String → Bool) : Value → Value
  | object fields => object (fields.filter fun entry => stays entry.1)
  | v => v

/-- Two choices of names, one after the other, are one choice. -/
theorem keep_keep (stays stays' : String → Bool) (v : Value) :
    (v.keep stays).keep stays' = v.keep fun name => stays name && stays' name := by
  cases v with
  | scalar s => rfl
  | array items => rfl
  | object fields =>
    show object _ = object _
    simp only [List.filter_filter, Bool.and_comm]

/-- When all names stay, nothing changes. -/
theorem keep_true (v : Value) : (v.keep fun _ => true) = v := by
  cases v with
  | scalar s => rfl
  | array items => rfl
  | object fields =>
    have hall : (fields.filter fun _ => true) = fields := List.filter_eq_self.mpr fun _ _ => rfl
    rw [keep, hall]

/-- What is kept is in order. -/
theorem Ordered.keep (h : v.Ordered) (stays : String → Bool) : (v.keep stays).Ordered := by
  cases v with
  | scalar s => exact h
  | array items => exact h
  | object fields =>
    have hfiltered : Fields.Ordered (fields.filter fun entry => stays entry.1) :=
      List.Pairwise.filter _ h.1
    exact ⟨hfiltered, orderedFields_iff.mpr fun entry he =>
      orderedFields_iff.mp h.2 entry (List.mem_filter.mp he).1⟩

/-- A source whose names are kept may be merged in before or after.  Under a name that is kept, both
ways merge the two parts; under one that is not, the source has nothing, and neither way leaves
anything. -/
theorem keep_merge (hv : v.Ordered) (hs : source.Ordered)
    (hk : ∀ name, (source.part? (.field name)).isSome → stays name = true) :
    (v.merge source).keep stays = (v.keep stays).merge source := by
  cases v with
  | scalar s => simp [merge, Value.keep]
  | array items => cases source <;> simp [merge, Value.keep]
  | object fields =>
    cases source with
    | scalar s => simp [merge, Value.keep]
    | array more => simp [merge, Value.keep]
    | object more =>
      have hmerged : Fields.Ordered (mergeFields fields more) := (hv.mergeFields hs.2).1
      have hkept : Fields.Ordered (mergeFields (fields.filter fun entry => stays entry.1) more) :=
        ((hv.keep stays).mergeFields hs.2).1
      simp only [merge, Value.keep, object.injEq]
      refine Fields.Ordered.ext (List.Pairwise.filter _ hmerged) hkept fun name => ?_
      rw [Fields.find?_filter, find?_mergeFields hs.1, find?_mergeFields hs.1, Fields.find?_filter]
      cases hname : stays name with
      | true => rfl
      | false =>
        -- The source has nothing of a name that is not kept.
        have hnone : Fields.find? name more = none := by
          cases hf : Fields.find? name more with
          | none => rfl
          | some a =>
            have hpart : (object more).part? (.field name) = some a := hf
            have htrue := hk name (Option.isSome_iff_exists.mpr ⟨a, hpart⟩)
            rw [hname] at htrue
            contradiction
        rw [hnone]
        rfl

/-- Taking out a field keeps the others. -/
theorem Ordered.drop?_field (h : v.Ordered) {name : String}
    (hin : (v.part? (.field name)).isSome) :
    v.drop? (.field name) = some (v.keep (· != name)) := by
  cases v with
  | scalar s => cases hin
  | array items => cases hin
  | object fields =>
    obtain ⟨a, ha⟩ := Option.isSome_iff_exists.mp hin
    have ha : Fields.find? name fields = some a := ha
    simp only [Value.drop?, Key.name?, Option.bind_eq_bind, Option.bind_some, ha, Value.keep]
    rw [h.1.erase_eq_filter]
    rfl

/-- A part that is kept is there. -/
theorem isSome_part?_keep {name : String} (hk : stays name = true)
    (hin : (v.part? (.field name)).isSome) : ((v.keep stays).part? (.field name)).isSome := by
  cases v with
  | scalar s => cases hin
  | array items => cases hin
  | object fields =>
    show (Fields.find? name (fields.filter fun entry => stays entry.1)).isSome
    rw [Fields.find?_filter, if_pos hk]
    exact hin

/-- A merge keeps the names of the target. -/
theorem isSome_part?_merge (hs : source.Ordered) {name : String}
    (hin : (v.part? (.field name)).isSome) : ((v.merge source).part? (.field name)).isSome := by
  cases halike : v.kind.isContainer && v.kind == source.kind with
  | false => rwa [merge_of_not_alike halike]
  | true =>
    obtain ⟨a, ha⟩ := Option.isSome_iff_exists.mp hin
    rw [part?_merge hs halike, ha]
    cases source.part? (.field name) <;> rfl

/-! ## Taking out and merging in -/

/-- Takes out the field of an entry and merges in a value. -/
def takeMerge? (source : String × Value → Value) (v : Value) (entry : String × Value) :
    Option Value :=
  (v.drop? (.field entry.1)).bind (overlay? [] (source entry))

variable {source : String × Value → Value} {entry : String × Value}

/-- A field that is there is taken out, and only the merge can fail. -/
theorem Ordered.takeMerge?_cases (h : v.Ordered) (hin : (v.part? (.field entry.1)).isSome) :
    takeMerge? source v entry = none ∨
      takeMerge? source v entry = some ((v.keep (· != entry.1)).merge (source entry)) := by
  rw [takeMerge?, h.drop?_field hin, Option.bind_some]
  exact overlay?_root (source entry) _

/-- Fields are taken out, and after each a value is merged in that has none of their names: this
fails or is as if all fields were taken out first.  By induction on the fields: the value merged in
for the first one commutes with taking out the others (`keep_merge`). -/
theorem foldlM_takeMerge {taken : List (String × Value)} (hv : v.Ordered)
    (hnames : taken.Pairwise fun a b => b.1 ≠ a.1)
    (hin : ∀ entry ∈ taken, (v.part? (.field entry.1)).isSome)
    (hs : ∀ entry ∈ taken, (source entry).Ordered)
    (hlacks : ∀ entry ∈ taken, ∀ other ∈ taken, (source entry).part? (.field other.1) = none) :
    taken.foldlM (takeMerge? source) v = none ∨
      taken.foldlM (takeMerge? source) v = some
        ((taken.map source).foldl merge
          (v.keep fun name => taken.all fun entry => name != entry.1)) := by
  induction taken generalizing v with
  | nil => exact Or.inr (congrArg some (keep_true v).symm)
  | cons entry rest ih =>
    obtain ⟨hfirst, hrest⟩ := List.pairwise_cons.mp hnames
    obtain ⟨hhere, hothers⟩ := List.forall_mem_cons.mp hin
    obtain ⟨hsource, hsources⟩ := List.forall_mem_cons.mp hs
    obtain ⟨hlack, -⟩ := List.forall_mem_cons.mp hlacks
    rw [List.foldlM_cons]
    have hcases : takeMerge? source v entry = none ∨
        takeMerge? source v entry = some ((v.keep (· != entry.1)).merge (source entry)) :=
      hv.takeMerge?_cases hhere
    -- The first field is taken out and its value merged in, or this fails.
    rcases hcases with hfail | hmerged
    · left
      rw [hfail]
      rfl
    · have hordered : (v.keep (· != entry.1)).Ordered := hv.keep _
      -- The other fields are still there: they have other names, and a merge loses none.
      have hleft : ∀ other ∈ rest,
          (((v.keep (· != entry.1)).merge (source entry)).part? (.field other.1)).isSome := by
        intro other ho
        have hne : (other.1 != entry.1) = true := bne_iff_ne.mpr (hfirst other ho)
        exact isSome_part?_merge hsource (isSome_part?_keep hne (hothers other ho))
      -- The value that was merged in has none of their names, so it may wait until they are out.
      have hfree : ∀ name, ((source entry).part? (.field name)).isSome →
          (rest.all fun other => name != other.1) = true := by
        intro name hname
        refine List.all_eq_true.mpr fun other ho => bne_iff_ne.mpr ?_
        rintro rfl
        rw [hlack other (List.mem_cons_of_mem entry ho)] at hname
        contradiction
      have hnext := ih (hordered.merge hsource) hrest hleft hsources fun e he other ho =>
        hlacks e (List.mem_cons_of_mem entry he) other (List.mem_cons_of_mem entry ho)
      rw [keep_merge hordered hsource hfree, keep_keep] at hnext
      rw [hmerged]
      exact hnext

end Value

end Expansion
