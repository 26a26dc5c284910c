import Expansion.Document.Load
import Expansion.Proofs.Document.Refinement
import Expansion.Proofs.Yaml.Entries

/-!
  What the data of a text are like.

  `Gives` says what holds of whatever a building step builds, no matter how many aliases have been
  followed before.  It goes with the steps: what a step gives, the next one may assume
  (`gives_bind`).  A mapping is built entry by entry, and an entry is only taken if its key is none
  of those before (`gives_buildEntries`).  So the keys of every mapping that is read differ
  (`keysDiffer_of_read`, by induction on the number of collections that may still nest), and a
  document that is read has lost an entry only where a key spells another
  (`keepsEntries_of_ofYaml_iff`).

  Scalars have no mappings in them, whatever they are read as; that is all that their part in this
  comes to (`keysDiffer_of_ofScalar`).
-/

namespace Expansion.Yaml.Datum

/-! ## Building steps -/

section Build

variable {α β : Type} {P : α → Prop} {Q : β → Prop}

/-- Whatever the step builds has the property. -/
def Gives (P : α → Prop) (x : Build α) : Prop :=
  ∀ jumps a more, x.run jumps = .ok (a, more) → P a

/-- A step that builds what is given. -/
theorem gives_pure {a : α} (h : P a) : Gives P (pure a) := by
  rintro jumps _ more ⟨⟩
  exact h

/-- A step that fails builds nothing. -/
theorem gives_throw (fault : Fault) : Gives P (throw fault) := nofun

/-- A result that does not depend on the aliases. -/
theorem gives_lift {x : Except Fault α} (h : ∀ a, x = .ok a → P a) :
    Gives P (liftM x : Build α) := by
  intro jumps a more hrun
  cases x with
  | ok b =>
    cases hrun
    exact h a rfl
  | error fault => cases hrun

/-- Of the second step it is enough to know what it builds from things that the first one can build.
-/
theorem gives_bind {x : Build α} {f : α → Build β} (hx : Gives P x)
    (hf : ∀ a, P a → Gives Q (f a)) : Gives Q (x >>= f) := by
  intro jumps b more hrun
  rw [StateT.run_bind] at hrun
  cases hstep : x.run jumps with
  | error fault =>
    rw [hstep] at hrun
    cases hrun
  | ok pair =>
    obtain ⟨a, between⟩ := pair
    rw [hstep] at hrun
    exact hf a (hx jumps a between hstep) between b more hrun

/-- Something is built, if anything. -/
theorem gives_any (x : Build α) : Gives (fun _ => True) x := fun _ _ _ _ => trivial

/-- What holds of each thing that is built holds of all in the row. -/
theorem gives_mapM {f : β → Build α} (h : ∀ b, Gives P (f b)) (bs : List β) :
    Gives (∀ a ∈ ·, P a) (bs.mapM f) := by
  induction bs with
  | nil => exact gives_pure nofun
  | cons b rest ih =>
    rw [List.mapM_cons]
    refine gives_bind (h b) fun a ha => gives_bind ih fun as has => gives_pure ?_
    exact List.forall_mem_cons.mpr ⟨ha, has⟩

end Build

/-! ## Scalars -/

/-- A tag around a datum leaves its mappings. -/
theorem keysDiffer_withTag {tag : Option Tag} {d : Datum} (h : d.KeysDiffer) :
    (withTag tag d).KeysDiffer := by
  rw [withTag]
  split
  · exact (everyMapping_tagged _ _).mpr h
  · exact h

/-- A plain scalar is no mapping, whatever its text stands for. -/
theorem keysDiffer_of_ofPlain {text : String} {d : Datum} (h : ofPlain text = .ok d) :
    d.KeysDiffer := by
  rw [ofPlain] at h
  split at h
  · cases h
    exact everyMapping_null
  · cases h
    exact everyMapping_boolean _
  · split at h
    · cases h
      exact everyMapping_number _
    · cases h
  · cases h
    exact everyMapping_number _
  · cases h
    exact everyMapping_string _

/-- A scalar with one of the known tags is no mapping either. -/
theorem keysDiffer_of_ofTagged {tag : Tag} {text : String} {d : Datum}
    (h : ofTagged tag text = .ok d) : d.KeysDiffer := by
  unfold ofTagged at h
  dsimp only at h
  -- One known tag after the other; the last case is a tag that keeps the text.
  split at h
  · split at h
    · rename_i datum hdatum
      obtain ⟨b, -, rfl⟩ := Option.map_eq_some_iff.mp hdatum
      cases h
      exact everyMapping_boolean b
    · cases h
  split at h
  · split at h
    · rename_i datum hdatum
      obtain ⟨n, -, rfl⟩ := Option.map_eq_some_iff.mp hdatum
      cases h
      exact everyMapping_number _
    · cases h
  split at h
  · split at h
    · rename_i datum hdatum
      obtain ⟨n, -, rfl⟩ := Option.map_eq_some_iff.mp hdatum
      cases h
      exact everyMapping_number n
    · cases h
  split at h
  · split at h
    · rename_i datum hdatum
      obtain ⟨-, hnull⟩ := Option.ite_none_right_eq_some.mp hdatum
      cases hnull
      cases h
      exact everyMapping_null
    · cases h
  · cases h
    exact everyMapping_string text

/-- No scalar is a mapping. -/
theorem keysDiffer_of_ofScalar {tag : Option Tag} {text : String} {plain : Bool} {d : Datum}
    (h : ofScalar tag text plain = .ok d) : d.KeysDiffer := by
  -- Without a tag, a quoted scalar is a string and a plain one what it stands for.
  have huntagged {d : Datum} (h : (if plain then ofPlain text else .ok (.string text)) = .ok d) :
      d.KeysDiffer := by
    split at h
    · exact keysDiffer_of_ofPlain h
    · cases h
      exact everyMapping_string _
  unfold ofScalar at h
  cases tag with
  | none => exact huntagged h
  | some t =>
    dsimp only at h
    split at h
    · cases huntag : (if plain then ofPlain text else .ok (.string text)) with
      | error fault =>
        rw [huntag] at h
        cases h
      | ok datum =>
        rw [huntag] at h
        cases h
        exact keysDiffer_withTag (huntagged huntag)
    · exact keysDiffer_of_ofTagged h

/-! ## Collections -/

/-- The keys of the entries differ, and so do those of all mappings in their values. -/
def EntriesDiffer (entries : List (Datum × Datum)) : Prop :=
  entries.Pairwise (fun a b => a.1.same b.1 = false) ∧ ∀ entry ∈ entries, entry.2.KeysDiffer

/-- A key that comes again is refused, so the entries that are built have different keys. -/
theorem gives_buildEntries {build : Raw → Build Datum}
    (hbuild : ∀ raw, Gives KeysDiffer (build raw)) (done : List (Datum × Datum))
    (hdone : EntriesDiffer done.reverse) (entries : List (Raw × Raw)) :
    Gives EntriesDiffer (buildEntries build done entries) := by
  induction entries generalizing done with
  | nil => exact gives_pure hdone
  | cons entry rest ih =>
    obtain ⟨rawKey, rawValue⟩ := entry
    rw [buildEntries]
    refine gives_bind (gives_any _) fun key _ => ?_
    split
    · exact gives_throw _
    · rename_i hnew
      refine gives_bind (hbuild rawValue) fun value hvalue => ih _ ⟨?_, ?_⟩
      · rw [List.reverse_cons, List.pairwise_append]
        refine ⟨hdone.1, List.pairwise_singleton _ _, fun a ha b hb => ?_⟩
        obtain rfl := List.mem_singleton.mp hb
        exact Bool.eq_false_iff.mpr fun hsame =>
          hnew (List.any_eq_true.mpr ⟨a, List.mem_reverse.mp ha, hsame⟩)
      · rw [List.reverse_cons, List.forall_mem_append]
        exact ⟨hdone.2, List.forall_mem_singleton.mpr hvalue⟩

-- `build` goes on below a match of the node, where the equation that it is defined by is not
-- found by itself; the next two state it for either number of levels.
theorem build_zero (c : Composition) (limit : Nat) (raw : Raw) : build c limit 0 raw = (do
    match ← follow c limit raw with
    | .scalar tag text plain => liftM (ofScalar tag text plain)
    | .alias _ => throw ⟨"an alias of an alias"⟩
    | .sequence _ _ | .mapping _ _ => throw ⟨"too deeply nested"⟩) := by
  delta build
  refine congrArg (follow c limit raw >>= ·) (funext fun raw => ?_)
  cases raw <;> rfl

theorem build_succ (c : Composition) (limit depth : Nat) (raw : Raw) :
    build c limit (depth + 1) raw = (do
      match ← follow c limit raw with
      | .scalar tag text plain => liftM (ofScalar tag text plain)
      | .alias _ => throw ⟨"an alias of an alias"⟩
      | .sequence tag items => return withTag tag (.sequence (← items.mapM (build c limit depth)))
      | .mapping tag entries =>
        return withTag tag (.mapping (← buildEntries (build c limit depth) [] entries))) := by
  delta build
  refine congrArg (follow c limit raw >>= ·) (funext fun raw => ?_)
  cases raw <;> rfl

/-- Whatever is built has different keys in each of its mappings, by induction on the levels. -/
theorem gives_build (c : Composition) (limit depth : Nat) (raw : Raw) :
    Gives KeysDiffer (build c limit depth raw) := by
  induction depth generalizing raw with
  | zero =>
    rw [build_zero]
    refine gives_bind (gives_any _) fun raw _ => ?_
    split
    · exact gives_lift fun d hd => keysDiffer_of_ofScalar hd
    · exact gives_throw _
    · exact gives_throw _
    · exact gives_throw _
  | succ depth ih =>
    rw [build_succ]
    refine gives_bind (gives_any _) fun raw _ => ?_
    split
    · exact gives_lift fun d hd => keysDiffer_of_ofScalar hd
    · exact gives_throw _
    · refine gives_bind (gives_mapM ih _) fun items hitems => gives_pure ?_
      exact keysDiffer_withTag ((everyMapping_sequence items).mpr hitems)
    · have hnone : EntriesDiffer [] := ⟨.nil, nofun⟩
      refine gives_bind (gives_buildEntries ih [] hnone _) fun data hdata => ?_
      exact gives_pure (keysDiffer_withTag ((everyMapping_mapping data).mpr hdata))

/-! ## Texts -/

/-- The keys of the mappings that are read differ. -/
theorem keysDiffer_of_read {text : String} {d : Datum} (h : read text = .ok d) : d.KeysDiffer := by
  obtain ⟨events, -, h⟩ := bind_eq_ok_iff.mp h
  obtain ⟨c, -, h⟩ := bind_eq_ok_iff.mp h
  cases hroot : c.root with
  | none =>
    rw [hroot] at h
    cases h
    exact everyMapping_null
  | some raw =>
    rw [hroot] at h
    obtain ⟨⟨datum, jumps⟩, hbuild, hd⟩ := bind_eq_ok_iff.mp h
    cases hd
    exact gives_build c _ _ raw 0 _ _ hbuild

/-- A document that is read from a text keeps all entries of all mappings of the text if and only if
no key of a mapping is the decimal form of another. -/
theorem keepsEntries_of_ofYaml_iff {text : String} {doc : Document}
    (h : Document.ofYaml text = .ok doc) :
    ∃ d, read text = .ok d ∧ (d.KeepsEntries doc.toValue ↔ d.SpellsNoKey) := by
  rw [Document.ofYaml] at h
  cases hread : read text with
  | error fault =>
    rw [hread] at h
    cases h
  | ok d =>
    cases hvalue : d.value [] with
    | error e => simp [hread, hvalue] at h
    | ok v =>
      simp only [hread, hvalue, Except.ok.injEq] at h
      have hbecomes : d.Becomes v := (value_eq_ok_iff d [] v).mp hvalue
      have hdoc : doc.toValue = v := h ▸ Document.toValue_ofValue hbecomes.ordered
      exact ⟨d, rfl, hdoc ▸ hbecomes.keepsEntries_iff (keysDiffer_of_read hread)⟩

end Expansion.Yaml.Datum
