import Mathlib.Data.List.Forall2
import Expansion.Yaml.Conversion
import Expansion.Proofs.Value.Gathering
import Expansion.Proofs.Yaml.Parts

/-!
  Which data are documents.

  `Becomes` says what value a datum is, without paths and without errors: tags are forgotten,
  numbers stay what they are, the order of a sequence stays, and a mapping is the table that its
  names and values gather in.  The conversion computes it (`value_eq_ok_iff`), so it does not depend
  on the path, and it succeeds when every number and every key in the datum is admitted
  (`exists_becomes_iff`).

  The places of a datum are the data that paths lead to and the keys of the mappings there
  (`mem_places_iff`), in the order of the document.  The conversion fails with what is wrong with
  the first place that offends (`refusal?_value`).  All of this is by induction on the parts of a
  datum, with one lemma for the elements of a sequence and one for the entries of a mapping.
-/

namespace Expansion

/-! ## Steps that can fail -/

section Except

variable {ε α β : Type} {x : Except ε α} {f : α → Except ε β}

/-- Two steps succeed when the first does and the second does with its result. -/
theorem bind_eq_ok_iff {b : β} : (x >>= f) = .ok b ↔ ∃ a, x = .ok a ∧ f a = .ok b := by
  cases x with
  | ok a => simp [bind, Except.bind]
  | error e => simp [bind, Except.bind]

/-- The error of a step that fails. -/
def refusal? : Except ε α → Option ε
  | .ok _ => none
  | .error e => some e

/-- The error is found where the step fails with it. -/
theorem refusal?_eq_some_iff {e : ε} : refusal? x = some e ↔ x = .error e := by
  cases x <;> simp [refusal?]

/-- Where the second step fails alike whatever the first one gives, the first error counts. -/
theorem refusal?_bind {o : Option ε} (h : ∀ a, refusal? (f a) = o) :
    refusal? (x >>= f) = (refusal? x).or o := by
  cases x with
  | ok a => exact h a
  | error e => rfl

/-- What is made of the result cannot fail. -/
theorem refusal?_bind_pure (f : α → β) : refusal? (x >>= fun a => pure (f a)) = refusal? x := by
  cases x <;> rfl

end Except

/-! ## Matching rows -/

section Rows

variable {α β : Type} {R : α → β → Prop} {as : List α} {bs : List β}

/-- A row has a matching row when each of its elements has a match.  The matches are chosen one
after the other, by induction on the row. -/
theorem exists_forall₂_iff : (∃ bs, List.Forall₂ R as bs) ↔ ∀ a ∈ as, ∃ b, R a b := by
  induction as with
  | nil => simp
  | cons a as ih =>
    rw [List.forall_mem_cons, ← ih]
    constructor
    · rintro ⟨_, _ | ⟨hb, hbs⟩⟩
      exact ⟨⟨_, hb⟩, ⟨_, hbs⟩⟩
    · rintro ⟨⟨b, hb⟩, ⟨bs, hbs⟩⟩
      exact ⟨b :: bs, .cons hb hbs⟩

/-- Matching rows match position by position. -/
theorem exists_getElem?_of_forall₂ {i : Nat} {a : α} (h : List.Forall₂ R as bs)
    (ha : as[i]? = some a) : ∃ b, bs[i]? = some b ∧ R a b := by
  induction h generalizing i with
  | nil => cases ha
  | cons hab _ ih =>
    cases i with
    | zero => exact ⟨_, rfl, Option.some.inj ha ▸ hab⟩
    | succ i => exact ih ha

/-- Every element of a row has its match in the other. -/
theorem exists_mem_of_forall₂ {a : α} (h : List.Forall₂ R as bs) (ha : a ∈ as) :
    ∃ b ∈ bs, R a b := by
  obtain ⟨i, hi⟩ := List.mem_iff_getElem?.mp ha
  obtain ⟨b, hb, hab⟩ := exists_getElem?_of_forall₂ h hi
  exact ⟨b, List.mem_of_getElem? hb, hab⟩

end Rows

namespace Yaml

/-! ## Numbers and names -/

/-- What number a numeral is: a whole number of 64 bits, with or without sign, or a finite number
of double precision. -/
inductive Numeral.Denotes : Numeral → Number → Prop
  | signed {n : Int} (h : -(Nat.pow 2 63 : Int) ≤ n ∧ n < Nat.pow 2 63) :
      Denotes (.whole n) (.whole n)
  | unsigned {n : Int} (h : 0 ≤ n ∧ n < Nat.pow 2 64) : Denotes (.whole n) (.whole n)
  | real (x : Binary64) : Denotes (.real x) (.real x)

/-- The number of a numeral is the one that it denotes.  Signed and unsigned numbers together are
the range that the conversion checks at once. -/
theorem Numeral.number?_eq_some_iff {n : Numeral} {m : Number} :
    n.number? = some m ↔ n.Denotes m := by
  cases n with
  | whole n =>
    have hfits : Number.fits n = true ↔ -(Nat.pow 2 63 : Int) ≤ n ∧ n < Nat.pow 2 64 := by
      rw [Number.fits, Bool.and_eq_true, decide_eq_true_iff, decide_eq_true_iff]
    have hle : Nat.pow 2 63 ≤ Nat.pow 2 64 := by decide
    rw [number?, Option.ite_none_right_eq_some, Option.some.injEq, hfits]
    constructor
    · rintro ⟨hn, rfl⟩
      by_cases h : n < Nat.pow 2 63
      · exact .signed ⟨hn.1, h⟩
      · exact .unsigned ⟨by omega, hn.2⟩
    · rintro (h | h)
      · exact ⟨by omega, rfl⟩
      · exact ⟨by omega, rfl⟩
  | real x =>
    constructor
    · rintro ⟨⟩
      exact .real x
    · rintro ⟨⟩
      rfl
  | infinite _ | undefined => exact iff_of_false nofun nofun

namespace Datum

/-- What name a key is: a text is itself, and a natural number of 64 bits its decimal text. -/
inductive Names : Datum → String → Prop
  | text (s : String) : Names (string s) s
  | natural (k : Nat) (h : k < Nat.pow 2 64) : Names (number (.whole k)) (toString k)

/-- The name of a key is the one that it has.  A negative number is no name, and neither is one that
is too large, or a fraction. -/
theorem fieldName?_eq_some_iff {d : Datum} {name : String} :
    d.fieldName? = some name ↔ d.Names name := by
  cases d with
  | string s =>
    constructor
    · rintro ⟨⟩
      exact .text _
    · rintro ⟨⟩
      rfl
  | number n =>
    cases n with
    | whole n =>
      rw [fieldName?, Option.ite_none_right_eq_some, Option.some.injEq]
      constructor
      · rintro ⟨⟨hn, hlt⟩, rfl⟩
        obtain ⟨k, rfl⟩ := Int.eq_ofNat_of_zero_le hn
        exact .natural k (by exact_mod_cast hlt)
      · rintro ⟨⟩
        rename_i k h
        exact ⟨⟨Int.natCast_nonneg k, by exact_mod_cast h⟩, rfl⟩
    | real x | infinite _ | undefined => exact iff_of_false nofun nofun
  | null | boolean b | sequence items | mapping entries | tagged t datum =>
    exact iff_of_false nofun nofun

/-! ## Values -/

/-- What value a datum is.  Tags are forgotten, the order of a sequence stays, and a mapping is the
object of its names and values. -/
inductive Becomes : Datum → Value → Prop
  | null : Becomes null .null
  | boolean (b : Bool) : Becomes (boolean b) (.boolean b)
  | number {n : Numeral} {m : Number} (h : n.Denotes m) : Becomes (number n) (.number m)
  | string (s : String) : Becomes (string s) (.string s)
  | sequence {items : List Datum} {values : List Value} (h : List.Forall₂ Becomes items values) :
      Becomes (sequence items) (.array values)
  | mapping {entries : List (Datum × Datum)} {names : List String} {values : List Value}
      {fields : Fields Value} (hnames : List.Forall₂ Names (entries.map (·.1)) names)
      (hvalues : List.Forall₂ Becomes (entries.map (·.2)) values)
      (hfields : Fields.Gathers (names.zip values) fields) :
      Becomes (mapping entries) (.object fields)
  | tagged {name : String} {datum : Datum} {v : Value} (h : Becomes datum v) :
      Becomes (tagged name datum) v

/-- The elements of a sequence are converted one by one. -/
theorem valueItems_eq_ok_iff {items : List Datum}
    (h : ∀ c ∈ items, ∀ path v, c.value path = .ok v ↔ c.Becomes v) (path : Path) (i : Nat)
    (values : List Value) :
    valueItems path i items = .ok values ↔ List.Forall₂ Becomes items values := by
  induction items generalizing i values with
  | nil =>
    rw [valueItems, Except.ok.injEq, List.forall₂_nil_left_iff, eq_comm]
  | cons item rest ih =>
    obtain ⟨hitem, hrest⟩ := List.forall_mem_cons.mp h
    simp only [valueItems, bind_eq_ok_iff, hitem, ih hrest, List.forall₂_cons_left_iff, pure,
      Except.pure, Except.ok.injEq]
    constructor
    · rintro ⟨v, hv, vs, hvs, rfl⟩
      exact ⟨v, vs, hv, hvs, rfl⟩
    · rintro ⟨v, vs, hv, hvs, rfl⟩
      exact ⟨v, hv, vs, hvs, rfl⟩

/-- The entries are filed in their order.  A later entry of the same name takes the place of the
earlier one, which is why the fields are said through the filing and not entry by entry. -/
theorem valueEntries_eq_ok_iff {entries : List (Datum × Datum)}
    (h : ∀ entry ∈ entries, ∀ path v, entry.2.value path = .ok v ↔ entry.2.Becomes v) (path : Path)
    (before fields : Fields Value) :
    valueEntries path before entries = .ok fields ↔
      ∃ names values, List.Forall₂ Names (entries.map (·.1)) names ∧
        List.Forall₂ Becomes (entries.map (·.2)) values ∧
        fields = (names.zip values).foldl (fun table entry => Fields.insert entry.1 entry.2 table)
          before := by
  induction entries generalizing before with
  | nil =>
    simp [valueEntries, eq_comm]
  | cons entry rest ih =>
    obtain ⟨key, datum⟩ := entry
    obtain ⟨hdatum, hrest⟩ := List.forall_mem_cons.mp h
    rw [valueEntries]
    constructor
    · -- The key needs a name before its value is looked at.
      intro hok
      cases hname : key.fieldName? with
      | none =>
        rw [hname] at hok
        cases hok
      | some name =>
        simp only [hname, bind_eq_ok_iff, hdatum, ih hrest] at hok
        obtain ⟨v, hv, names, values, hnames, hvalues, rfl⟩ := hok
        exact ⟨name :: names, v :: values, .cons (fieldName?_eq_some_iff.mp hname) hnames,
          .cons hv hvalues, rfl⟩
    · rintro ⟨_, _, hnames, hvalues, rfl⟩
      cases hnames with
      | cons hname hnames =>
      cases hvalues with
      | cons hv hvalues =>
      simp only [fieldName?_eq_some_iff.mpr hname, bind_eq_ok_iff, hdatum, ih hrest]
      exact ⟨_, hv, _, _, hnames, hvalues, rfl⟩

/-- The conversion gives what the datum becomes, at any path.  The path is only there for the
errors, so the induction on the datum is for all paths at once. -/
theorem value_eq_ok_iff (d : Datum) (path : Path) (v : Value) :
    d.value path = .ok v ↔ d.Becomes v := by
  -- For the parts this is known at every path, whatever keys have been gone down so far.
  induction d using parts_induction generalizing path v with
  | h d ih =>
  cases d with
  | null | boolean b | string s =>
    rw [value, Except.ok.injEq]
    constructor
    · rintro rfl
      constructor
    · rintro ⟨⟩
      rfl
  | number n =>
    rw [value]
    constructor
    · intro h
      cases hm : n.number? with
      | none =>
        rw [hm] at h
        cases h
      | some m =>
        rw [hm] at h
        cases h
        exact .number (Numeral.number?_eq_some_iff.mp hm)
    · rintro (_ | _ | hm)
      rw [Numeral.number?_eq_some_iff.mpr hm]
  | sequence items =>
    have hitems : ∀ c ∈ items, ∀ path v, c.value path = .ok v ↔ c.Becomes v := ih
    simp only [value, bind_eq_ok_iff, valueItems_eq_ok_iff hitems, pure, Except.pure,
      Except.ok.injEq]
    constructor
    · rintro ⟨values, hvalues, rfl⟩
      exact .sequence hvalues
    · intro h
      cases h with
      | sequence hvalues => exact ⟨_, hvalues, rfl⟩
  | mapping entries =>
    have hentries : ∀ entry ∈ entries, ∀ path v, entry.2.value path = .ok v ↔ entry.2.Becomes v :=
      fun entry hin => ih entry.2 (List.mem_map_of_mem hin)
    simp only [value, bind_eq_ok_iff, valueEntries_eq_ok_iff hentries, pure, Except.pure,
      Except.ok.injEq]
    constructor
    · rintro ⟨fields, ⟨names, values, hnames, hvalues, hfields⟩, rfl⟩
      exact .mapping hnames hvalues (Fields.gathers_iff.mpr hfields)
    · intro h
      cases h with
      | mapping hnames hvalues hfields =>
        exact ⟨_, ⟨_, _, hnames, hvalues, Fields.gathers_iff.mp hfields⟩, rfl⟩
  | tagged name datum =>
    rw [value, ih datum List.mem_cons_self]
    exact ⟨.tagged, fun h => by cases h; assumption⟩

/-- A datum is one value at most. -/
theorem Becomes.unique {d : Datum} {v w : Value} (hv : d.Becomes v) (hw : d.Becomes w) : v = w :=
  Except.ok.inj (((value_eq_ok_iff d [] v).mpr hv).symm.trans ((value_eq_ok_iff d [] w).mpr hw))

/-! ## Which data have a value -/

/-- Nothing about the datum itself, whatever its parts are, is foreign to documents. -/
def Admitted : Datum → Prop
  | number n => ∃ m, n.Denotes m
  | mapping entries => ∀ entry ∈ entries, ∃ name, entry.1.Names name
  | _ => True

/-- At every depth, numbers are those of documents and keys are names. -/
def Representable (d : Datum) : Prop := ∀ x, d.Has x → x.Admitted

/-- A datum becomes a value when it is representable.  A row has values when each datum in it has
one, and the fields of a mapping can always be filed. -/
theorem exists_becomes_iff (d : Datum) : (∃ v, d.Becomes v) ↔ d.Representable := by
  induction d using parts_induction with
  | h d ih =>
  have hparts : (∀ c ∈ d.parts, ∀ x, c.Has x → x.Admitted) ↔ ∀ c ∈ d.parts, ∃ v, c.Becomes v :=
    forall₂_congr fun c hc => (ih c hc).symm
  rw [Representable, forall_has_iff, hparts]
  cases d with
  | null | boolean b | string s => exact iff_of_true ⟨_, by constructor⟩ ⟨trivial, nofun⟩
  | number n =>
    constructor
    · rintro ⟨_, _ | _ | hm⟩
      exact ⟨⟨_, hm⟩, nofun⟩
    · rintro ⟨⟨m, hm⟩, -⟩
      exact ⟨_, .number hm⟩
  | sequence items =>
    show _ ↔ True ∧ ∀ c ∈ items, _
    rw [true_and, ← exists_forall₂_iff]
    constructor
    · rintro ⟨v, h⟩
      cases h with
      | sequence h => exact ⟨_, h⟩
    · rintro ⟨values, h⟩
      exact ⟨_, .sequence h⟩
  | mapping entries =>
    -- The keys have names in a row when each of them has one.
    have hkeys : (∀ entry ∈ entries, ∃ name, entry.1.Names name) ↔
        ∃ names, List.Forall₂ Names (entries.map (·.1)) names := by
      rw [exists_forall₂_iff, List.forall_mem_map]
    show _ ↔ (∀ entry ∈ entries, _) ∧ ∀ c ∈ entries.map (·.2), _
    rw [hkeys, ← exists_forall₂_iff]
    constructor
    · rintro ⟨v, h⟩
      cases h with
      | mapping hnames hvalues hfields => exact ⟨⟨_, hnames⟩, ⟨_, hvalues⟩⟩
    · rintro ⟨⟨names, hnames⟩, ⟨values, hvalues⟩⟩
      exact ⟨_, .mapping hnames hvalues (Fields.gathers_ofList _)⟩
  | tagged name datum =>
    show _ ↔ True ∧ ∀ c ∈ [datum], _
    rw [true_and, List.forall_mem_singleton]
    constructor
    · rintro ⟨v, h⟩
      cases h with
      | tagged h => exact ⟨v, h⟩
    · rintro ⟨v, h⟩
      exact ⟨v, .tagged h⟩

/-! ## Places -/

/-- A key of the mapping at a path, or the datum at a path. -/
inductive Place
  | key (path : Path) (key : Datum)
  | datum (path : Path) (datum : Datum)

mutual

/-- The places of the datum at `path`, in the order of the document.  A key comes before its value,
and the value of a key that is no name has no path. -/
def places (path : Path) : Datum → List Place
  | sequence items => .datum path (sequence items) :: placesOfItems path 0 items
  | mapping entries => .datum path (mapping entries) :: placesOfEntries path entries
  | tagged name datum => .datum path (tagged name datum) :: datum.places path
  | d => [.datum path d]

/-- The places in the elements, counted from `i`. -/
def placesOfItems (path : Path) (i : Nat) : List Datum → List Place
  | [] => []
  | item :: rest => item.places (path ++ [.index i]) ++ placesOfItems path (i + 1) rest

/-- The places in the entries. -/
def placesOfEntries (path : Path) : List (Datum × Datum) → List Place
  | [] => []
  | (key, datum) :: rest =>
    .key path key :: (match key.fieldName? with
      | some name => datum.places (path ++ [.field name])
      | none => []) ++ placesOfEntries path rest

end

/-- A path leads from a datum to another: by position into a sequence, by name into a mapping, and
through tags without a step. -/
inductive At : Datum → Path → Datum → Prop
  | here (d : Datum) : At d [] d
  | item {items : List Datum} {i : Nat} {c x : Datum} {p : Path} (hc : items[i]? = some c)
      (h : At c p x) : At (sequence items) (.index i :: p) x
  | entry {entries : List (Datum × Datum)} {key c x : Datum} {name : String} {p : Path}
      (hc : (key, c) ∈ entries) (hname : key.Names name) (h : At c p x) :
      At (mapping entries) (.field name :: p) x
  | tagged {name : String} {c x : Datum} {p : Path} (h : At c p x) : At (tagged name c) p x

/-- The places of a datum alone: itself, and the keys of a mapping. -/
inductive Place.Of (path : Path) : Datum → Place → Prop
  | datum (d : Datum) : Of path d (.datum path d)
  | key {entries : List (Datum × Datum)} {entry : Datum × Datum} (h : entry ∈ entries) :
      Of path (mapping entries) (.key path entry.1)

/-- The places in elements are those of each element, under its position. -/
theorem mem_placesOfItems_iff {items : List Datum} {path : Path} {i : Nat} {place : Place} :
    place ∈ placesOfItems path i items ↔
      ∃ (j : Nat) (c : Datum), items[j]? = some c ∧
        place ∈ c.places (path ++ [.index (i + j)]) := by
  induction items generalizing i with
  | nil => simp [placesOfItems]
  | cons item rest ih =>
    rw [placesOfItems, List.mem_append, ih]
    constructor
    · rintro (h | ⟨j, c, hc, h⟩)
      · exact ⟨0, item, rfl, h⟩
      · exact ⟨j + 1, c, hc, by rwa [Nat.add_comm j 1, ← Nat.add_assoc]⟩
    · rintro ⟨j, c, hc, h⟩
      cases j with
      | zero => exact .inl (Option.some.inj hc ▸ h)
      | succ j => exact .inr ⟨j, c, hc, by rwa [Nat.add_assoc, Nat.add_comm 1 j]⟩

/-- The places in entries are the keys, and the places of each value under the name of its key. -/
theorem mem_placesOfEntries_iff {entries : List (Datum × Datum)} {path : Path} {place : Place} :
    place ∈ placesOfEntries path entries ↔ ∃ entry ∈ entries, place = .key path entry.1 ∨
      ∃ name, entry.1.Names name ∧ place ∈ entry.2.places (path ++ [.field name]) := by
  induction entries with
  | nil => simp [placesOfEntries]
  | cons entry rest ih =>
    obtain ⟨key, datum⟩ := entry
    rw [placesOfEntries, List.mem_append, List.mem_cons, ih]
    simp only [List.mem_cons, exists_eq_or_imp, ← fieldName?_eq_some_iff]
    cases key.fieldName? <;> simp

/-- The places of a datum alone are among its places. -/
theorem mem_places_of {d : Datum} {path : Path} {place : Place} (h : place.Of path d) :
    place ∈ d.places path := by
  cases h with
  | datum => cases d <;> exact List.mem_cons_self
  | key hin => exact List.mem_cons_of_mem _ (mem_placesOfEntries_iff.mpr ⟨_, hin, .inl rfl⟩)

/-- The places of a datum are the data that paths lead to, and the keys of the mappings there.  From
left to right by induction on the datum, from right to left by induction on the path through it. -/
theorem mem_places_iff (d : Datum) (path : Path) (place : Place) :
    place ∈ d.places path ↔ ∃ p x, d.At p x ∧ place.Of (path ++ p) x := by
  constructor
  · intro h
    have hself (d : Datum) (path : Path) {place : Place} (h : place.Of path d) :
        ∃ p x, d.At p x ∧ place.Of (path ++ p) x := ⟨[], d, .here d, by rwa [List.append_nil]⟩
    induction d using parts_induction generalizing path with
    | h d ih =>
    cases d with
    | null | boolean b | string s | number n =>
      obtain rfl := List.mem_singleton.mp h
      exact hself _ _ (.datum _)
    | sequence items =>
      rcases List.mem_cons.mp h with rfl | h
      · exact hself _ _ (.datum _)
      · obtain ⟨i, c, hc, h⟩ := mem_placesOfItems_iff.mp h
        obtain ⟨p, x, hx, hplace⟩ := ih c (List.mem_of_getElem? hc) _ h
        rw [Nat.zero_add, List.append_assoc] at hplace
        exact ⟨_, x, .item hc hx, hplace⟩
    | mapping entries =>
      rcases List.mem_cons.mp h with rfl | h
      · exact hself _ _ (.datum _)
      · obtain ⟨entry, hin, rfl | ⟨name, hname, h⟩⟩ := mem_placesOfEntries_iff.mp h
        · exact hself _ _ (.key hin)
        · obtain ⟨p, x, hx, hplace⟩ := ih entry.2 (List.mem_map_of_mem hin) _ h
          rw [List.append_assoc] at hplace
          exact ⟨_, x, .entry hin hname hx, hplace⟩
    | tagged name datum =>
      rcases List.mem_cons.mp h with rfl | h
      · exact hself _ _ (.datum _)
      · obtain ⟨p, x, hx, hplace⟩ := ih datum List.mem_cons_self _ h
        exact ⟨p, x, .tagged hx, hplace⟩
  · rintro ⟨p, x, hx, hplace⟩
    -- The other way by induction on how the path leads there.
    induction hx generalizing path with
    | here d => exact mem_places_of (List.append_nil path ▸ hplace)
    | @item items i c x p hc h ih =>
      have hin := ih (path ++ [.index i]) (by rwa [List.append_assoc])
      exact List.mem_cons_of_mem _
        (mem_placesOfItems_iff.mpr ⟨i, c, hc, by rwa [Nat.zero_add]⟩)
    | @entry entries key c x name p hc hname h ih =>
      have hin := ih (path ++ [.field name]) (by rwa [List.append_assoc])
      exact List.mem_cons_of_mem _
        (mem_placesOfEntries_iff.mpr ⟨_, hc, .inr ⟨name, hname, hin⟩⟩)
    | tagged h ih => exact List.mem_cons_of_mem _ (ih path hplace)

/-! ## The first offence -/

/-- What is wrong with a place. -/
inductive Place.Offends : Place → DocumentError → Prop
  | key {path : Path} {key : Datum} (h : ∀ name, ¬ key.Names name) :
      Offends (.key path key) (.invalidKey path.text key.describe)
  | number {path : Path} {n : Numeral} (h : ∀ m, ¬ n.Denotes m) :
      Offends (.datum path (number n)) (.invalidValue path.text n.text)

/-- What is wrong with a place, as it is reported. -/
def Place.offence? : Place → Option DocumentError
  | .key path d =>
    if d.fieldName? = none then some (.invalidKey path.text d.describe) else none
  | .datum path (number n) =>
    if n.number? = none then some (.invalidValue path.text n.text) else none
  | .datum _ _ => none

/-- What is reported of a place is what is wrong with it. -/
theorem Place.offence?_eq_some_iff {place : Place} {e : DocumentError} :
    place.offence? = some e ↔ place.Offends e := by
  cases place with
  | key path key =>
    have hnone : key.fieldName? = none ↔ ∀ name, ¬ key.Names name := by
      simp only [Option.eq_none_iff_forall_ne_some, ne_eq, fieldName?_eq_some_iff]
    rw [offence?, Option.ite_none_right_eq_some, Option.some.injEq, hnone]
    constructor
    · rintro ⟨h, rfl⟩
      exact .key h
    · rintro ⟨h⟩
      exact ⟨h, rfl⟩
  | datum path d =>
    cases d with
    | number n =>
      have hnone : n.number? = none ↔ ∀ m, ¬ n.Denotes m := by
        simp only [Option.eq_none_iff_forall_ne_some, ne_eq, Numeral.number?_eq_some_iff]
      rw [offence?, Option.ite_none_right_eq_some, Option.some.injEq, hnone]
      constructor
      · rintro ⟨h, rfl⟩
        exact .number h
      · rintro (- | h)
        exact ⟨h, rfl⟩
    | null | boolean b | string s | sequence items | mapping entries | tagged name datum =>
      exact iff_of_false nofun nofun

/-- Elements fail with the first offence in them. -/
theorem refusal?_valueItems {items : List Datum}
    (h : ∀ c ∈ items, ∀ path, refusal? (c.value path) = (c.places path).findSome? Place.offence?)
    (path : Path) (i : Nat) :
    refusal? (valueItems path i items) = (placesOfItems path i items).findSome? Place.offence? := by
  induction items generalizing i with
  | nil => rfl
  | cons item rest ih =>
    obtain ⟨hitem, hrest⟩ := List.forall_mem_cons.mp h
    rw [valueItems, placesOfItems, List.findSome?_append, ← hitem, ← ih hrest]
    exact refusal?_bind fun v => refusal?_bind_pure _

/-- Entries fail with the first offence in them: a key is looked at before its value. -/
theorem refusal?_valueEntries {entries : List (Datum × Datum)}
    (h : ∀ entry ∈ entries, ∀ path,
      refusal? (entry.2.value path) = (entry.2.places path).findSome? Place.offence?)
    (path : Path) (before : Fields Value) :
    refusal? (valueEntries path before entries)
      = (placesOfEntries path entries).findSome? Place.offence? := by
  induction entries generalizing before with
  | nil => rfl
  | cons entry rest ih =>
    obtain ⟨key, datum⟩ := entry
    obtain ⟨hdatum, hrest⟩ := List.forall_mem_cons.mp h
    rw [valueEntries, placesOfEntries, List.cons_append, List.findSome?_cons, Place.offence?]
    cases hname : key.fieldName? with
    | none => simp only [if_true, refusal?]
    | some name =>
      simp only [reduceCtorEq, if_false, List.findSome?_append, ← hdatum]
      exact refusal?_bind fun v => ih hrest _

/-- The error is the first offence. -/
theorem refusal?_value (d : Datum) (path : Path) :
    refusal? (d.value path) = (d.places path).findSome? Place.offence? := by
  induction d using parts_induction generalizing path with
  | h d ih =>
  cases d with
  | null | boolean b | string s => rfl
  | number n =>
    have hplaces : (number n).places path = [.datum path (number n)] := rfl
    rw [value, hplaces, List.findSome?_singleton, Place.offence?]
    cases n.number? <;> rfl
  -- A container itself offends nowhere, so the first offence is in its parts.
  | sequence items =>
    have hitems : ∀ c ∈ items, ∀ path,
        refusal? (c.value path) = (c.places path).findSome? Place.offence? := ih
    rw [value, places, List.findSome?_cons, ← refusal?_valueItems hitems,
      refusal?_bind_pure]
    rfl
  | mapping entries =>
    have hentries : ∀ entry ∈ entries, ∀ path,
        refusal? (entry.2.value path) = (entry.2.places path).findSome? Place.offence? :=
      fun entry hin => ih entry.2 (List.mem_map_of_mem hin)
    rw [value, places, List.findSome?_cons, ← refusal?_valueEntries hentries path [],
      refusal?_bind_pure]
    rfl
  | tagged name datum =>
    rw [value, places, List.findSome?_cons, ← ih datum List.mem_cons_self]
    rfl

/-- The conversion succeeds exactly when every key is a name and every number one that documents
hold, and gives what the datum becomes.  Otherwise its error is that of the first place, in the
order of the document, with which something is wrong; the places are the data that paths lead to
and the keys of the mappings there. -/
theorem value_exact (d : Datum) (path : Path) :
    ((∃ v, d.value path = .ok v) ↔ d.Representable) ∧
      (∀ v, d.value path = .ok v ↔ d.Becomes v) ∧
      (∀ e, d.value path = .error e ↔ ∃ before place after,
        d.places path = before ++ place :: after ∧
        (∀ earlier ∈ before, ∀ other, ¬ earlier.Offends other) ∧ place.Offends e) ∧
      ∀ place, place ∈ d.places path ↔ ∃ p x, d.At p x ∧ place.Of (path ++ p) x := by
  refine ⟨?_, value_eq_ok_iff d path, fun e => ?_, mem_places_iff d path⟩
  · simp only [value_eq_ok_iff, exists_becomes_iff]
  · have hearlier : ∀ {earlier : Place},
        earlier.offence? = none ↔ ∀ other, ¬ earlier.Offends other := by
      simp only [Option.eq_none_iff_forall_ne_some, ne_eq, Place.offence?_eq_some_iff, implies_true]
    rw [← refusal?_eq_some_iff, refusal?_value, List.findSome?_eq_some_iff]
    simp only [hearlier, Place.offence?_eq_some_iff, and_comm (a := Place.Offends _ _)]

end Datum

end Yaml

end Expansion
