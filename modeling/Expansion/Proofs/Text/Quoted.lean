import Expansion.Path

/-!
  Quoted texts and texts of paths can be read back.

  The argument goes from the inside out, and at each level it says the same: a piece of text is read
  up to its end, whatever follows it.  Digits end before a brace, so a number in braces is
  determined (`numbered_append_inj`).  A character is written as it is, by a letter after a
  backslash, or by its number; no such form starts another one (`encodeChar_append_inj`), and none
  starts with a quote (`encodeChar_append_ne`).  So a text is determined by its quoted form up to
  the closing quote (`body_append_inj`), and quoted texts can stand one after the other.

  The key of a step ends at its bracket, and a name and a position differ in their first character
  (`Key.textBy_append_inj`); hence a path is determined by its text (`Path.textBy_injective`).
  Nothing is asked of the table of the characters that are written by number: the two ways of
  writing a character can be told apart whichever of them is taken.
-/

namespace Expansion

namespace Text.Quoted

/-! ## Numbers -/

/-- The sixteen digits are different characters. -/
theorem digitChar_injective : ∀ a < 16, ∀ b < 16, Nat.digitChar a = Nat.digitChar b → a = b := by
  decide

/-- A number is determined by its digits in base sixteen: the last digit is its rest, and those
before are the digits of its quotient, by induction on the number. -/
theorem toDigits_injective {a b : Nat} (h : Nat.toDigits 16 a = Nat.toDigits 16 b) : a = b := by
  induction a using Nat.strongRecOn generalizing b with
  | ind a ih =>
    rw [Nat.toDigits_eq_if (n := a) (by decide), Nat.toDigits_eq_if (n := b) (by decide)] at h
    by_cases ha : a < 16 <;> by_cases hb : b < 16
    · rw [if_pos ha, if_pos hb] at h
      exact digitChar_injective a ha b hb (List.cons.inj h).1
    · -- One digit cannot be several.
      rw [if_pos ha, if_neg hb] at h
      exact absurd (List.append_eq_singleton_iff.mp h.symm) (by simp [Nat.toDigits_ne_nil])
    · rw [if_neg ha, if_pos hb] at h
      exact absurd (List.append_eq_singleton_iff.mp h) (by simp [Nat.toDigits_ne_nil])
    · -- Both have a last digit and digits before it.
      rw [if_neg ha, if_neg hb] at h
      obtain ⟨hinit, hlast⟩ := List.append_inj' h rfl
      have hdiv : a / 16 = b / 16 := ih (a / 16) (by omega) hinit
      have hmod : a % 16 = b % 16 :=
        digitChar_injective _ (Nat.mod_lt a (by decide)) _ (Nat.mod_lt b (by decide))
          (List.cons.inj hlast).1
      omega

/-- No digit is a closing brace. -/
theorem digitChar_ne : ∀ a < 16, Nat.digitChar a ≠ '\x7d' := by
  decide

/-- The digits of a number end before a brace. -/
theorem brace_notMem_toDigits (n : Nat) : '\x7d' ∉ Nat.toDigits 16 n := by
  induction n using Nat.strongRecOn with
  | ind n ih =>
    rw [Nat.toDigits_eq_if (by decide)]
    by_cases hn : n < 16
    · rw [if_pos hn, List.mem_singleton]
      exact (digitChar_ne n hn).symm
    · rw [if_neg hn, List.mem_append, List.mem_singleton, not_or]
      exact ⟨ih (n / 16) (by omega), (digitChar_ne _ (Nat.mod_lt n (by decide))).symm⟩

/-- What comes before the first `c` is determined, and so is what comes after it. -/
theorem append_cons_inj {α : Type} {c : α} {a b x y : List α} (ha : c ∉ a) (hb : c ∉ b)
    (h : a ++ c :: x = b ++ c :: y) : a = b ∧ x = y := by
  induction a generalizing b with
  | nil =>
    cases b with
    | nil => exact ⟨rfl, (List.cons.inj h).2⟩
    | cons d b => exact absurd (List.mem_cons.mpr (Or.inl (List.cons.inj h).1)) hb
  | cons d a ih =>
    cases b with
    | nil => exact absurd (List.mem_cons.mpr (Or.inl (List.cons.inj h).1.symm)) ha
    | cons e b =>
      obtain ⟨rfl, htail⟩ := List.cons.inj h
      obtain ⟨rfl, hxy⟩ :=
        ih (List.not_mem_of_not_mem_cons ha) (List.not_mem_of_not_mem_cons hb) htail
      exact ⟨rfl, hxy⟩

/-! ## Characters -/

/-- The characters that are written with a backslash and one letter, with the letter. -/
def letters : List (Char × Char) :=
  [('"', '"'), ('\\', '\\'), ('\n', 'n'), ('\r', 'r'), ('\t', 't'), ('\x00', '0')]

/-- A letter stands for one character. -/
theorem letters_injective :
    ∀ a ∈ letters, ∀ b ∈ letters, a.2 = b.2 → a.1 = b.1 := by
  decide

/-- No character is written with the letter that starts a number. -/
theorem letters_ne : ∀ a ∈ letters, a.2 ≠ 'u' := by
  decide

variable {table : Char → Bool}

/-- A character is written as it is, by a letter, or by its number. -/
theorem encodeChar_cases (table : Char → Bool) (c : Char) :
    (c ≠ '"' ∧ c ≠ '\\' ∧ encodeChar table c = [c]) ∨
      (∃ d, (c, d) ∈ letters ∧ encodeChar table c = ['\\', d]) ∨
      encodeChar table c = numbered c := by
  unfold encodeChar
  by_cases h1 : c = '"'
  · exact Or.inr (Or.inl ⟨'"', by simp [letters, h1], by simp [h1]⟩)
  by_cases h2 : c = '\\'
  · exact Or.inr (Or.inl ⟨'\\', by simp [letters, h2], by simp [h2]⟩)
  by_cases h3 : c = '\n'
  · exact Or.inr (Or.inl ⟨'n', by simp [letters, h3], by simp [h3]⟩)
  by_cases h4 : c = '\r'
  · exact Or.inr (Or.inl ⟨'r', by simp [letters, h4], by simp [h4]⟩)
  by_cases h5 : c = '\t'
  · exact Or.inr (Or.inl ⟨'t', by simp [letters, h5], by simp [h5]⟩)
  by_cases h6 : c = '\x00'
  · exact Or.inr (Or.inl ⟨'0', by simp [letters, h6], by simp [h6]⟩)
  rw [if_neg h1, if_neg h2, if_neg h3, if_neg h4, if_neg h5, if_neg h6]
  by_cases h7 : table c = true
  · exact Or.inr (Or.inr (if_pos h7))
  · exact Or.inl ⟨h1, h2, if_neg h7⟩

/-- A number is read up to its brace. -/
theorem numbered_append_inj {c d : Char} {x y : List Char}
    (h : numbered c ++ x = numbered d ++ y) : c = d ∧ x = y := by
  simp only [numbered, List.cons_append, List.append_assoc, List.cons.injEq, true_and,
    List.nil_append] at h
  obtain ⟨hdigits, hrest⟩ :=
    append_cons_inj (brace_notMem_toDigits _) (brace_notMem_toDigits _) h
  exact ⟨Char.toNat_inj.mp (toDigits_injective hdigits), hrest⟩

/-- No character's form starts another one's.  Of the nine ways in which two forms can meet, the six
mixed ones fail at the first or second character. -/
theorem encodeChar_append_inj {c d : Char} {x y : List Char}
    (h : encodeChar table c ++ x = encodeChar table d ++ y) : c = d ∧ x = y := by
  rcases encodeChar_cases table c with ⟨hc, hc', ec⟩ | ⟨l, hl, ec⟩ | ec <;>
    -- The form of `c` by rows, that of `d` by columns: as it is, by a letter, by its number.
    rcases encodeChar_cases table d with ⟨hd, hd', ed⟩ | ⟨m, hm, ed⟩ | ed <;> rw [ec, ed] at h
  · exact ⟨(List.cons.inj h).1, (List.cons.inj h).2⟩
  · exact absurd (List.cons.inj h).1 hc'
  · exact absurd (List.cons.inj h).1 hc'
  · exact absurd (List.cons.inj h).1.symm hd'
  · obtain ⟨hlm, hxy⟩ := List.cons.inj (List.cons.inj h).2
    exact ⟨letters_injective _ hl _ hm hlm, hxy⟩
  · exact absurd (List.cons.inj (List.cons.inj h).2).1 (letters_ne _ hl)
  · exact absurd (List.cons.inj h).1.symm hd'
  · exact absurd (List.cons.inj (List.cons.inj h).2).1.symm (letters_ne _ hm)
  · exact numbered_append_inj h

/-- No character's form starts with a quote. -/
theorem encodeChar_append_ne (c : Char) (x y : List Char) :
    encodeChar table c ++ x ≠ '"' :: y := by
  intro h
  rcases encodeChar_cases table c with ⟨hc, -, ec⟩ | ⟨l, -, ec⟩ | ec <;> rw [ec] at h
  · exact hc (List.cons.inj h).1
  · exact absurd (List.cons.inj h).1 (by decide)
  · exact absurd (List.cons.inj h).1 (by decide)

/-! ## Texts -/

/-- A quoted text is read up to its closing quote: while both texts go on their next characters
agree, and neither can go on where the other ends, since no character starts with a quote. -/
theorem body_append_inj {a b x y : List Char}
    (h : body table a ++ '"' :: x = body table b ++ '"' :: y) : a = b ∧ x = y := by
  induction a generalizing b with
  | nil =>
    cases b with
    | nil => exact ⟨rfl, (List.cons.inj h).2⟩
    | cons d b =>
      rw [body, body, List.flatMap_cons, List.append_assoc] at h
      exact absurd h.symm (encodeChar_append_ne d _ x)
  | cons c a ih =>
    cases b with
    | nil =>
      rw [body, body, List.flatMap_cons, List.append_assoc] at h
      exact absurd h (encodeChar_append_ne c _ y)
    | cons d b =>
      rw [body, body, List.flatMap_cons, List.flatMap_cons, List.append_assoc,
        List.append_assoc] at h
      obtain ⟨rfl, htail⟩ := encodeChar_append_inj h
      obtain ⟨rfl, hxy⟩ := ih htail
      exact ⟨rfl, hxy⟩

/-- A quoted text is its characters in quotes. -/
theorem toList_encodeBy (table : Char → Bool) (text : String) :
    (encodeBy table text).toList = '"' :: (body table text.toList ++ ['"']) := by
  simp [encodeBy]

end Text.Quoted

/-- A natural number is determined by its decimal text. -/
theorem eq_of_toString_eq {k l : Nat} (h : toString k = toString l) : k = l := by
  rw [Nat.toString_eq_ofList_toDigits, Nat.toString_eq_ofList_toDigits, String.ofList_inj] at h
  have hvalue := congrArg (fun digits => Nat.ofDigitChars 10 digits 0) h
  simpa only [Nat.ofDigitChars_ten_toDigits] using hvalue

namespace Key

/-- The text of a position holds digits only. -/
theorem isDigit_of_mem {i : Nat} {c : Char} (h : c ∈ (toString i).toList) : c.isDigit = true := by
  rw [Nat.toString_eq_ofList_toDigits, String.toList_ofList] at h
  exact Nat.isDigit_of_mem_toDigits (by decide) (by decide) h

variable {table : Char → Bool}

/-- A name is quoted inside its brackets. -/
theorem toList_textBy_field (table : Char → Bool) (name : String) :
    ((field name).textBy (Text.Quoted.encodeBy table)).toList
      = '[' :: '"' :: (Text.Quoted.body table name.toList ++ ['"', ']']) := by
  simp [textBy, Text.Quoted.toList_encodeBy]

/-- A position stands in its brackets in decimal digits. -/
theorem toList_textBy_index (quote : String → String) (i : Nat) :
    ((index i).textBy quote).toList = '[' :: ((toString i).toList ++ [']']) := by
  simp [textBy]

/-- A name and a position do not begin alike: after the bracket there is a quote or a digit. -/
theorem index_append_ne_field (i : Nat) (name : String) (x y : List Char) :
    ((index i).textBy (Text.Quoted.encodeBy table)).toList ++ x
      ≠ ((field name).textBy (Text.Quoted.encodeBy table)).toList ++ y := by
  rw [toList_textBy_index, toList_textBy_field]
  intro h
  have h := (List.cons.inj h).2
  cases hi : (toString i).toList with
  | nil =>
    rw [hi] at h
    exact absurd (List.cons.inj h).1 (by decide)
  | cons c rest =>
    have hc : c.isDigit = true := isDigit_of_mem (i := i) (hi ▸ List.mem_cons_self)
    rw [hi] at h
    rw [(List.cons.inj h).1] at hc
    exact absurd hc (by decide)

/-- The text of a step is read up to its closing bracket.  That of a name is found after its closing
quote, that of a position after its digits, which hold no bracket. -/
theorem textBy_append_inj {a b : Key} {x y : List Char}
    (h : (a.textBy (Text.Quoted.encodeBy table)).toList ++ x
      = (b.textBy (Text.Quoted.encodeBy table)).toList ++ y) : a = b ∧ x = y := by
  cases a with
  | field name =>
    cases b with
    | field other =>
      rw [toList_textBy_field, toList_textBy_field] at h
      simp only [List.cons_append, List.append_assoc, List.cons.injEq, true_and,
        List.nil_append] at h
      obtain ⟨hname, hxy⟩ := Text.Quoted.body_append_inj h
      exact ⟨congrArg Key.field (String.toList_inj.mp hname), (List.cons.inj hxy).2⟩
    | index j => exact absurd h.symm (index_append_ne_field j name y x)
  | index i =>
    cases b with
    | field other => exact absurd h (index_append_ne_field i other x y)
    | index j =>
      rw [toList_textBy_index, toList_textBy_index] at h
      simp only [List.cons_append, List.append_assoc, List.cons.injEq, true_and,
        List.nil_append] at h
      have hbracket : ∀ n : Nat, ']' ∉ (toString n).toList := fun n hm =>
        absurd (isDigit_of_mem hm) (by decide)
      obtain ⟨hij, hxy⟩ := Text.Quoted.append_cons_inj (hbracket i) (hbracket j) h
      exact ⟨congrArg Key.index (eq_of_toString_eq (String.toList_inj.mp hij)), hxy⟩

end Key

namespace Path

variable {table : Char → Bool}

/-- The text of a path is a dollar sign and the texts of its steps. -/
theorem toList_textBy (quote : String → String) (path : Path) :
    (path.textBy quote).toList = '$' :: path.flatMap fun key => (key.textBy quote).toList := by
  -- The text is put together from the left, so the induction is for any beginning.
  have hfold : ∀ (text : String),
      (path.foldl (fun text key => text ++ key.textBy quote) text).toList
        = text.toList ++ path.flatMap fun key => (key.textBy quote).toList := by
    induction path with
    | nil => simp
    | cons key rest ih =>
      intro text
      rw [List.foldl_cons, ih, String.toList_append, List.flatMap_cons, List.append_assoc]
  exact hfold "$"

/-- The steps are read one after the other, and no step is empty. -/
theorem flatMap_textBy_injective {p q : Path}
    (h : (p.flatMap fun key => (key.textBy (Text.Quoted.encodeBy table)).toList)
      = q.flatMap fun key => (key.textBy (Text.Quoted.encodeBy table)).toList) : p = q := by
  have hne : ∀ (key : Key) (x : List Char),
      (key.textBy (Text.Quoted.encodeBy table)).toList ++ x ≠ [] := by
    rintro (name | i) x <;> simp [Key.toList_textBy_field, Key.toList_textBy_index]
  induction p generalizing q with
  | nil =>
    cases q with
    | nil => rfl
    | cons b q => exact absurd h.symm (hne b _)
  | cons a p ih =>
    cases q with
    | nil => exact absurd h (hne a _)
    | cons b q =>
      obtain ⟨rfl, hrest⟩ := Key.textBy_append_inj h
      rw [ih hrest]

/-- A path is determined by its text, whichever characters are written by number. -/
theorem textBy_injective {p q : Path}
    (h : p.textBy (Text.Quoted.encodeBy table) = q.textBy (Text.Quoted.encodeBy table)) :
    p = q := by
  have hl := congrArg String.toList h
  rw [toList_textBy, toList_textBy] at hl
  exact flatMap_textBy_injective (List.cons.inj hl).2

/-- A path is determined by its text. -/
theorem text_injective {p q : Path} (h : p.text = q.text) : p = q :=
  textBy_injective h

/-- The text tells the path: with the table of characters that is used, and with every other one. -/
theorem text_eq_text_iff (p q : Path) :
    (p.text = q.text ↔ p = q) ∧
      ∀ table : Char → Bool,
        p.textBy (Text.Quoted.encodeBy table) = q.textBy (Text.Quoted.encodeBy table) ↔ p = q := by
  constructor
  · exact ⟨text_injective, congrArg text⟩
  · intro table
    exact ⟨textBy_injective, congrArg (textBy (Text.Quoted.encodeBy table))⟩

/-- A name that looks like two steps, and the two steps. -/
example : text [.field "a\"][\"b"] ≠ text [.field "a", .field "b"] := by
  decide +kernel

end Path

end Expansion
