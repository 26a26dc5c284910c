import Expansion.Macro.Call
import Mathlib.Data.List.Basic

/-!
  Macro keys are read as they are written.

  A key is read by splitting it: after the namespace, at the first point, at the first parenthesis.
  Each split is inverted by putting the parts together again (`splitAtFirst_eq_some_iff`,
  `readVerb_eq_some_iff`, `afterSpace?_eq_some_iff`).  The name of a kind holds no point and a verb
  no parenthesis, so the splits find the parts that a key was put together from: a key is read as a
  call exactly when it is the text of the call and the words of the call are in the vocabulary
  (`Vocabulary.parse_eq_some_iff`).
-/

namespace Expansion.Macro

/-! ## Splitting -/

/-- A text is split at the first such character, when none is before it. -/
theorem splitAtFirst_append_cons {c : Char} {before : List Char} (h : c ∉ before)
    (after : List Char) : splitAtFirst c (before ++ c :: after) = some (before, after) := by
  induction before with
  | nil => simp [splitAtFirst]
  | cons d rest ih =>
    obtain ⟨hd, hrest⟩ := not_or.mp (fun hor => h (List.mem_cons.mpr hor))
    rw [List.cons_append, splitAtFirst, if_neg (Ne.symm hd), ih hrest]
    rfl

/-- What is split at a character holds it first between the two parts. -/
theorem splitAtFirst_eq_some_iff {c : Char} {text before after : List Char} :
    splitAtFirst c text = some (before, after) ↔ text = before ++ c :: after ∧ c ∉ before := by
  constructor
  · intro h
    induction text generalizing before with
    | nil => cases h
    | cons d rest ih =>
      rw [splitAtFirst] at h
      split at h
      · rename_i hd
        obtain ⟨rfl, rfl⟩ := Prod.mk.inj (Option.some.inj h)
        exact ⟨by rw [hd]; rfl, List.not_mem_nil⟩
      · rename_i hd
        obtain ⟨⟨front, back⟩, hsplit, h⟩ := Option.map_eq_some_iff.mp h
        obtain ⟨rfl, rfl⟩ := Prod.mk.inj h
        obtain ⟨rfl, hfront⟩ := ih hsplit
        refine ⟨rfl, fun hin => ?_⟩
        rcases List.mem_cons.mp hin with rfl | hin
        · exact hd rfl
        · exact hfront hin
  · rintro ⟨rfl, h⟩
    exact splitAtFirst_append_cons h after

/-- A text that does not have the character is not split. -/
theorem splitAtFirst_eq_none_iff {c : Char} {text : List Char} :
    splitAtFirst c text = none ↔ c ∉ text := by
  induction text with
  | nil => simp [splitAtFirst]
  | cons d rest ih =>
    rw [splitAtFirst]
    by_cases hd : d = c
    · simp [hd]
    · rw [if_neg hd, Option.map_eq_none_iff, ih, List.mem_cons, not_or]
      exact ⟨fun h => ⟨Ne.symm hd, h⟩, fun h => h.2⟩

/-- The part after a namespace is what follows the namespace and a point. -/
theorem afterSpace?_eq_some_iff {space key : String} {rest : List Char} :
    afterSpace? space key = some rest ↔ key.toList = space.toList ++ '.' :: rest := by
  rw [afterSpace?, List.isPrefixOf?_eq_some_iff_append_eq, List.append_assoc]
  exact eq_comm

/-! ## Verbs and arguments -/

/-- An argument holds no parenthesis. -/
def Plain (argument : Option String) : Prop :=
  ∀ a, argument = some a → '(' ∉ a.toList ∧ ')' ∉ a.toList

/-- What is written for an argument. -/
def argumentText : Option String → List Char
  | none => []
  | some a => '(' :: (a.toList ++ [')'])

/-- A verb and its argument are read from what is written for them, and from nothing else.  What is
written for them is the verb alone, or the verb with the argument in parentheses, and no verb holds
a parenthesis. -/
theorem readVerb_eq_some_iff {text : List Char} {verb : String} {argument : Option String} :
    readVerb text = some (verb, argument) ↔
      '(' ∉ verb.toList ∧ Plain argument ∧ text = verb.toList ++ argumentText argument := by
  rw [readVerb]
  cases hs : splitAtFirst '(' text with
  | none =>
    have hnot := splitAtFirst_eq_none_iff.mp hs
    constructor
    · intro h
      obtain ⟨rfl, rfl⟩ := Prod.mk.inj (Option.some.inj h)
      refine ⟨by rwa [String.toList_ofList], fun a ha => (nomatch ha), ?_⟩
      rw [String.toList_ofList]
      exact (List.append_nil text).symm
    · rintro ⟨-, -, rfl⟩
      cases argument with
      | none => simp [argumentText]
      | some a => exact absurd (List.mem_append_right _ List.mem_cons_self) hnot
  | some parts =>
    obtain ⟨before, tail⟩ := parts
    obtain ⟨rfl, hbefore⟩ := splitAtFirst_eq_some_iff.mp hs
    simp only
    constructor
    · intro h
      split at h
      · cases h
      · rename_i a ha
        split at h
        · cases h
        · rename_i hplain
          obtain ⟨rfl, rfl⟩ := Prod.mk.inj (Option.some.inj h)
          obtain rfl := List.isSuffixOf?_eq_some_iff_append_eq.mp ha
          refine ⟨by rwa [String.toList_ofList], fun b hb => ?_, ?_⟩
          · obtain rfl := Option.some.inj hb
            simpa [String.toList_ofList] using hplain
          · rw [argumentText, String.toList_ofList, String.toList_ofList]
    · -- The first parenthesis of the text is the one that the argument opens with, since the verb
      -- has none.
      rintro ⟨hverb, hplain, htext⟩
      cases argument with
      | none =>
        rw [argumentText, List.append_nil] at htext
        exact absurd (htext ▸ List.mem_append_right _ List.mem_cons_self) hverb
      | some a =>
        have hsplit := splitAtFirst_append_cons hverb (a.toList ++ [')'])
        rw [argumentText] at htext
        rw [← htext, splitAtFirst_append_cons hbefore] at hsplit
        obtain ⟨rfl, rfl⟩ := Prod.mk.inj (Option.some.inj hsplit)
        obtain ⟨hopen, hclose⟩ := hplain a rfl
        have hsuffix : List.isSuffixOf? [')'] (a.toList ++ [')']) = some a.toList :=
          List.isSuffixOf?_eq_some_iff_append_eq.mpr rfl
        simp [hsuffix, hopen, hclose]

/-! ## Keys -/

/-- The name of a kind holds no point. -/
theorem point_notMem_name (kind : Kind) : '.' ∉ kind.name.toList := by
  cases kind <;> decide

/-- The characters of a macro name. -/
theorem toList_canonicalName (space : String) (returnType : Kind) (verb : String) :
    (canonicalName space returnType verb).toList
      = space.toList ++ '.' :: (returnType.name.toList ++ '.' :: verb.toList) := by
  simp [canonicalName]

/-- The characters of a key that calls a macro. -/
theorem toList_text (space : String) (call : Call) :
    (call.text space).toList
      = space.toList ++ '.' :: (call.returnType.name.toList
        ++ '.' :: (call.verb.toList ++ argumentText call.argument)) := by
  rw [Call.text, String.toList_append, Call.name, toList_canonicalName]
  cases call.argument <;> simp [argumentText]

/-- A macro's name tells its type and its verb. -/
theorem canonicalName_inj {space : String} {S T : Kind} {U V : String} :
    canonicalName space S U = canonicalName space T V ↔ S = T ∧ U = V := by
  constructor
  · intro h
    have hlist := congrArg String.toList h
    rw [toList_canonicalName, toList_canonicalName] at hlist
    have hrest := (List.cons.inj (List.append_cancel_left hlist)).2
    have hsplit := splitAtFirst_append_cons (point_notMem_name S) U.toList
    rw [hrest, splitAtFirst_append_cons (point_notMem_name T)] at hsplit
    obtain ⟨htype, hverb⟩ := Prod.mk.inj (Option.some.inj hsplit)
    exact ⟨Kind.name_injective (String.toList_injective htype.symm),
      String.toList_injective hverb.symm⟩
  · rintro ⟨rfl, rfl⟩
    rfl

namespace Vocabulary

variable {vocabulary : Vocabulary} {key : String} {call : Call}

/-- A key is read as a call exactly when it is what is written for the call, the words of the call
are known, and its verb and argument can be told apart.  The namespace is taken off as a prefix, the
type is split off at the next point, and the verb is read from what is left. -/
theorem parse_eq_some_iff :
    vocabulary.parse key = some call ↔
      key = call.text vocabulary.space ∧ '(' ∉ call.verb.toList ∧ Plain call.argument ∧
        call.returnType ∈ vocabulary.types ∧ call.verb ∈ vocabulary.verbs := by
  have hkey : key = call.text vocabulary.space ↔ key.toList = (call.text vocabulary.space).toList :=
    String.toList_inj.symm
  rw [hkey, toList_text]
  constructor
  · intro h
    obtain ⟨rest, hrest, h⟩ := Option.bind_eq_some_iff.mp h
    obtain ⟨⟨typeName, tail⟩, hsplit, h⟩ := Option.bind_eq_some_iff.mp h
    obtain ⟨returnType, htype, h⟩ := Option.bind_eq_some_iff.mp h
    obtain ⟨⟨verb, argument⟩, hverb, h⟩ := Option.bind_eq_some_iff.mp h
    obtain ⟨hwords, h⟩ := Option.ite_none_right_eq_some.mp h
    obtain rfl := Option.some.inj h
    obtain ⟨hopen, hplain, rfl⟩ := readVerb_eq_some_iff.mp hverb
    obtain ⟨rfl, -⟩ := splitAtFirst_eq_some_iff.mp hsplit
    have hname : returnType.name.toList = typeName := by
      rw [Kind.named?_eq_some_iff.mp htype, String.toList_ofList]
    obtain ⟨hin, hin'⟩ := Bool.and_eq_true_iff.mp hwords
    refine ⟨?_, hopen, hplain, List.contains_iff_mem.mp hin, List.contains_iff_mem.mp hin'⟩
    rw [afterSpace?_eq_some_iff.mp hrest, hname]
  · -- The other way, each of the splits finds the parts that the key was put together from.
    rintro ⟨htext, hopen, hplain, htype, hverb⟩
    have hrest := afterSpace?_eq_some_iff.mpr htext
    have hsplit := splitAtFirst_append_cons (point_notMem_name call.returnType)
      (call.verb.toList ++ argumentText call.argument)
    have hread := readVerb_eq_some_iff.mpr ⟨hopen, hplain, rfl⟩
    rw [parse, hrest]
    simp only [Option.bind_eq_bind, Option.bind_some, hsplit, String.ofList_toList,
      Kind.named?_name, hread]
    simp [htype, hverb]

/-- A key that can be read is laid out like a name of the namespace. -/
theorem inSpace_of_parse (h : vocabulary.parse key = some call) :
    vocabulary.inSpace key = true := by
  obtain ⟨rfl, -⟩ := parse_eq_some_iff.mp h
  rw [inSpace, afterSpace?_eq_some_iff.mpr (toList_text vocabulary.space call)]
  simp

end Vocabulary

end Expansion.Macro
