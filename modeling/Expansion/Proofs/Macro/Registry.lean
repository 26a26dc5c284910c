import Expansion.Macro.Builtin
import Expansion.Proofs.Fields
import Expansion.Proofs.Macro.Key
import Mathlib.Data.List.Dedup

/-!
  What a registry holds after registrations.

  A registration files a macro under its phase and its name, and the name tells the definition
  (`canonicalName_inj`).  So what is found under a phase and a name is the last registration of that
  definition (`find?_defineAll`), what is listed are the definitions registered, each once and in
  order (`Filed`), and the words of the listed definitions are those of all registrations.  With
  what is known of the reading of keys this says exactly which keys call which macro
  (`defineAll_exact`).
-/

namespace Expansion

namespace Macro.Definition

/-- Definitions are listed by phase, and by name within a phase. -/
def Precedes (space : String) (a b : Definition) : Prop :=
  Phase.all.idxOf a.phase < Phase.all.idxOf b.phase ∨
    a.phase = b.phase ∧ a.name space < b.name space

/-- No definition comes before itself. -/
theorem Precedes.ne {space : String} {a b : Definition} (h : a.Precedes space b) : a ≠ b := by
  rintro rfl
  rcases h with h | ⟨-, h⟩
  · exact Nat.lt_irrefl _ h
  · exact String.lt_irrefl _ h

/-- Within a phase the name tells the definition. -/
theorem eq_of_name_eq {space : String} {a b : Definition} (hp : a.phase = b.phase)
    (hn : a.name space = b.name space) : a = b := by
  obtain ⟨htype, hverb⟩ := canonicalName_inj.mp hn
  obtain ⟨T, phase, V⟩ := a
  obtain ⟨T', phase', V'⟩ := b
  obtain rfl : T = T' := htype
  obtain rfl : phase = phase' := hp
  obtain rfl : V = V' := hverb
  rfl

end Macro.Definition

namespace Registry

open Macro

variable {registry : Registry} {m : Registered} {calls : List Registered} {d : Definition}

/-! ## The last registration -/

/-- The last registration of a definition. -/
def last? (d : Definition) (calls : List Registered) : Option Registered :=
  calls.reverse.find? fun m => m.definition = d

/-- The last registration is one of the later ones, if there is any for the definition. -/
theorem last?_cons (d : Definition) (m : Registered) (rest : List Registered) :
    last? d (m :: rest) = (last? d rest).or (if m.definition = d then some m else none) := by
  rw [last?, List.reverse_cons, List.find?_append]
  by_cases h : m.definition = d <;> simp [last?, h]

/-- The last registration of a definition is followed by none of that definition. -/
theorem last?_eq_some_iff :
    last? d calls = some m ↔
      m.definition = d ∧ ∃ before after, calls = before ++ m :: after ∧
        ∀ other ∈ after, other.definition ≠ d := by
  rw [last?, List.find?_eq_some_iff_append]
  simp only [decide_eq_true_eq, Bool.not_eq_eq_eq_not, Bool.not_true, decide_eq_false_iff_not]
  refine and_congr_right fun _ => ?_
  constructor
  · rintro ⟨after, before, hcalls, hafter⟩
    refine ⟨before.reverse, after.reverse, ?_, fun other ho => hafter other (by simpa using ho)⟩
    rw [← calls.reverse_reverse, hcalls]
    simp
  · rintro ⟨before, after, rfl, hafter⟩
    exact ⟨after.reverse, before.reverse, by simp, fun other ho => hafter other (by simpa using ho)⟩

/-- There is a last registration where there is one at all. -/
theorem isSome_last?_iff : (last? d calls).isSome ↔ ∃ m ∈ calls, m.definition = d := by
  simp [last?, List.find?_isSome]

/-- A registration is found under its phase and name, and what else is found stays. -/
theorem find?_add (registry : Registry) (m : Registered) (d : Definition) :
    (registry.add m.definition m.factory).find? d.phase (d.name registry.space)
      = if m.definition = d then some m else registry.find? d.phase (d.name registry.space) := by
  simp only [find?, add]
  by_cases hp : d.phase = m.definition.phase
  · rw [if_pos hp]
    by_cases hd : m.definition = d
    · rw [if_pos hd, ← hd, Fields.find?_insert_self]
    · have hn : d.name registry.space ≠ m.definition.name registry.space :=
        fun hn => hd (Definition.eq_of_name_eq hp.symm hn.symm)
      rw [if_neg hd, Fields.find?_insert_of_ne hn]
  · rw [if_neg hp, if_neg fun hd => hp (congrArg Definition.phase hd.symm)]

/-- Registrations leave the namespace. -/
theorem space_defineAll (calls : List Registered) (registry : Registry) :
    (defineAll calls registry).value.space = registry.space := by
  induction calls generalizing registry with
  | nil => rfl
  | cons m rest ih =>
    rw [defineAll, Logged.value_bind, value_define]
    exact ih _

/-- After registrations the last one of a definition is found, or else what was there before. -/
theorem find?_defineAll (calls : List Registered) (registry : Registry) (d : Definition) :
    (defineAll calls registry).value.find? d.phase (d.name registry.space)
      = (last? d calls).or (registry.find? d.phase (d.name registry.space)) := by
  induction calls generalizing registry with
  | nil => rfl
  | cons m rest ih =>
    rw [defineAll, Logged.value_bind, value_define, last?_cons, Option.or_assoc]
    refine (ih (registry.add m.definition m.factory)).trans (congrArg _ ?_)
    show (registry.add m.definition m.factory).find? d.phase (d.name registry.space) = _
    rw [find?_add]
    by_cases hd : m.definition = d <;> simp [hd]

/-! ## What is listed -/

/-- Every macro is filed under its phase and its name, and the names are in order. -/
structure Filed (registry : Registry) : Prop where
  ordered : ∀ phase, (registry.macros phase).Ordered
  named : ∀ phase, ∀ entry ∈ registry.macros phase,
    entry.2.definition.phase = phase ∧ entry.1 = entry.2.definition.name registry.space

/-- A registration files one more macro where it belongs.  What was filed for the same words is
replaced, and the words of all others differ. -/
theorem Filed.add (h : registry.Filed) (m : Registered) :
    (registry.add m.definition m.factory).Filed := by
  constructor
  · intro phase
    simp only [Registry.add]
    split
    · exact (h.ordered phase).insert _ _
    · exact h.ordered phase
  · intro phase entry he
    simp only [Registry.add] at he
    split at he
    · rename_i hp
      rcases Fields.mem_insert he with rfl | he
      · exact ⟨hp.symm, rfl⟩
      · exact h.named phase entry he
    · exact h.named phase entry he

/-- So do any number of them. -/
theorem Filed.defineAll (h : registry.Filed) (calls : List Registered) :
    (defineAll calls registry).value.Filed := by
  induction calls generalizing registry with
  | nil => exact h
  | cons m rest ih =>
    rw [Registry.defineAll, Logged.value_bind, value_define]
    exact ih (h.add m)

/-- What is listed is what is found. -/
theorem Filed.mem_definitions_iff (h : registry.Filed) :
    d ∈ registry.definitions ↔ (registry.find? d.phase (d.name registry.space)).isSome := by
  rw [definitions, List.mem_flatMap]
  constructor
  · rintro ⟨phase, -, hd⟩
    obtain ⟨⟨name, m⟩, hm, rfl⟩ := List.mem_map.mp hd
    obtain ⟨hp, hn⟩ := h.named phase _ hm
    show (registry.find? m.definition.phase (m.definition.name registry.space)).isSome
    rw [find?, show m.definition.phase = phase from hp, ← hn, (h.ordered phase).find?_of_mem hm]
    rfl
  · intro hd
    obtain ⟨m, hm⟩ := Option.isSome_iff_exists.mp hd
    have hin := Fields.mem_of_find? hm
    obtain ⟨hp, hn⟩ := h.named d.phase _ hin
    exact ⟨d.phase, Phase.mem_all _, List.mem_map.mpr
      ⟨_, hin, Definition.eq_of_name_eq hp hn.symm⟩⟩

/-- Definitions are listed in order. -/
theorem Filed.pairwise_definitions (h : registry.Filed) :
    registry.definitions.Pairwise (Definition.Precedes registry.space) := by
  have hphases : Phase.all.Pairwise fun p q => Phase.all.idxOf p < Phase.all.idxOf q := by decide
  refine List.pairwise_flatMap.mpr ⟨fun phase _ => ?_, hphases.imp fun {p q} hlt a ha b hb => ?_⟩
  · rw [List.pairwise_map]
    refine (h.ordered phase).imp_of_mem fun {a b} ha hb hlt => ?_
    obtain ⟨hpa, hna⟩ := h.named phase a ha
    obtain ⟨hpb, hnb⟩ := h.named phase b hb
    exact Or.inr ⟨hpa.trans hpb.symm, hna ▸ hnb ▸ hlt⟩
  · obtain ⟨x, hx, rfl⟩ := List.mem_map.mp ha
    obtain ⟨y, hy, rfl⟩ := List.mem_map.mp hb
    refine Or.inl ?_
    rwa [(h.named p x hx).1, (h.named q y hy).1]

/-! ## Registrations in an empty registry -/

section

variable {space key : String} {phase : Phase} {call : Call} {invocation : Invocation}
  {factory : Factory}

/-- An empty registry has nothing that is filed wrongly. -/
theorem filed_defineAll (space : String) (calls : List Registered) :
    (defineAll calls { space }).value.Filed := by
  have hempty : Filed { space } := ⟨fun _ => .nil, fun _ _ he => absurd he List.not_mem_nil⟩
  exact hempty.defineAll calls

/-- What is found is the last registration. -/
theorem find?_defineAll_nil (space : String) (calls : List Registered) (d : Definition) :
    (defineAll calls { space }).value.find? d.phase (d.name space) = last? d calls := by
  have hfind := find?_defineAll calls { space } d
  have hnone : find? { space } d.phase (d.name space) = none := rfl
  rwa [hnone, Option.or_none] at hfind

/-- What is listed was registered. -/
theorem mem_definitions_defineAll :
    d ∈ (defineAll calls { space }).value.definitions ↔ ∃ m ∈ calls, m.definition = d := by
  rw [(filed_defineAll space calls).mem_definitions_iff, space_defineAll, find?_defineAll_nil,
    isSome_last?_iff]

/-- The words of a registry are those of all registrations: one that is replaced leaves its words to
the one that takes its place.  No word is ever taken back. -/
theorem parse_defineAll_iff (hverbs : ∀ m ∈ calls, '(' ∉ m.definition.verb.toList) :
    (defineAll calls { space }).value.vocabulary.parse key = some call ↔
      Plain call.argument ∧ key = call.text space ∧
        (∃ m ∈ calls, m.definition.returnType = call.returnType) ∧
        ∃ m ∈ calls, m.definition.verb = call.verb := by
  have htypes : call.returnType ∈ (defineAll calls { space }).value.vocabulary.types ↔
      ∃ m ∈ calls, m.definition.returnType = call.returnType := by
    show _ ∈ List.map Definition.returnType _ ↔ _
    simp [mem_definitions_defineAll]
  have hwords : call.verb ∈ (defineAll calls { space }).value.vocabulary.verbs ↔
      ∃ m ∈ calls, m.definition.verb = call.verb := by
    show _ ∈ List.map Definition.verb _ ↔ _
    simp [mem_definitions_defineAll]
  have hspace : (defineAll calls { space }).value.vocabulary.space = space :=
    space_defineAll calls { space }
  rw [Vocabulary.parse_eq_some_iff, htypes, hwords, hspace]
  constructor
  · rintro ⟨htext, -, hplain, htype, hverb⟩
    exact ⟨hplain, htext, htype, hverb⟩
  · rintro ⟨hplain, htext, htype, m, hm, hverb⟩
    exact ⟨htext, hverb ▸ hverbs m hm, hplain, htype, m, hm, hverb⟩

/-- A key calls a macro when it is read as a call and a macro is filed under its words. -/
theorem lookup_eq_some_iff {registry : Registry} :
    registry.lookup phase key = some (invocation, factory) ↔
      ∃ call m, registry.vocabulary.parse key = some call ∧
        registry.find? phase (call.name registry.space) = some m ∧
        invocation = ⟨m.definition, call.name registry.space, call.argument⟩ ∧
        factory = m.factory := by
  simp only [lookup, Option.bind_eq_bind]
  constructor
  · intro h
    obtain ⟨call, hparse, h⟩ := Option.bind_eq_some_iff.mp h
    obtain ⟨m, hfind, h⟩ := Option.bind_eq_some_iff.mp h
    obtain ⟨rfl, rfl⟩ := Prod.mk.inj (Option.some.inj h)
    exact ⟨call, m, hparse, hfind, rfl, rfl⟩
  · rintro ⟨call, m, hparse, hfind, rfl, rfl⟩
    rw [hparse, Option.bind_some, hfind]
    rfl

/-- A key calls the macro that was last registered for its words in the phase.  So it makes no
difference in which order the other macros were registered. -/
theorem lookup_defineAll_iff (hverbs : ∀ m ∈ calls, '(' ∉ m.definition.verb.toList) :
    (defineAll calls { space }).value.lookup phase key = some (invocation, factory) ↔
      ∃ (call : Call) (m : Registered), Plain call.argument ∧ key = call.text space ∧
        last? ⟨call.returnType, phase, call.verb⟩ calls = some m ∧
        invocation = ⟨m.definition, call.name space, call.argument⟩ ∧ factory = m.factory := by
  have hfind : ∀ call : Call, (defineAll calls { space }).value.find? phase (call.name space)
      = last? ⟨call.returnType, phase, call.verb⟩ calls :=
    fun call => find?_defineAll_nil space calls ⟨call.returnType, phase, call.verb⟩
  rw [lookup_eq_some_iff, space_defineAll]
  simp only [parse_defineAll_iff hverbs, hfind]
  constructor
  · rintro ⟨call, m, ⟨hplain, htext, -⟩, hlast, hmade⟩
    exact ⟨call, m, hplain, htext, hlast, hmade⟩
  · rintro ⟨call, m, hplain, htext, hlast, hmade⟩
    -- A macro that is registered has known words.
    obtain ⟨hd, before, after, hcalls, -⟩ := last?_eq_some_iff.mp hlast
    have hm : m ∈ calls := hcalls ▸ List.mem_append_right _ List.mem_cons_self
    have htype : m.definition.returnType = call.returnType := by rw [hd]
    have hverb : m.definition.verb = call.verb := by rw [hd]
    exact ⟨call, m, ⟨hplain, htext, ⟨m, hm, htype⟩, m, hm, hverb⟩, hlast, hmade⟩

end

/-- A registry answers for exactly what was registered, whatever the namespace.

A key calls a macro in a phase exactly when it is the text of a call whose type and verb were
registered for the phase, with an argument that holds no parenthesis; what it calls is the last such
registration, under its name and with the argument of the key.  A key is read as a call exactly when
it is the text of the call, the argument holds no parenthesis, and the type and the verb were
registered, be it for other phases and not together; and then it is laid out like a name of the
namespace.  The registry lists the definitions that were registered, each once, by phase and then by
name, and counts them. -/
theorem defineAll_exact (space : String) (calls : List Registered)
    (hverbs : ∀ m ∈ calls, '(' ∉ m.definition.verb.toList) :
    let registry := (defineAll calls { space }).value
    (∀ phase key, (registry.lookup phase key).isSome ↔
      ∃ call : Call, Plain call.argument ∧ key = call.text space ∧
        ∃ m ∈ calls, m.definition = ⟨call.returnType, phase, call.verb⟩) ∧
    (∀ phase key invocation factory,
      registry.lookup phase key = some (invocation, factory) ↔
        ∃ (call : Call) (m : Registered) (before after : List Registered),
          Plain call.argument ∧ key = call.text space ∧ calls = before ++ m :: after ∧
          m.definition = ⟨call.returnType, phase, call.verb⟩ ∧
          (∀ other ∈ after, other.definition ≠ ⟨call.returnType, phase, call.verb⟩) ∧
          invocation = ⟨m.definition, canonicalName space call.returnType call.verb,
            call.argument⟩ ∧
          factory = m.factory) ∧
    (∀ key call, registry.vocabulary.parse key = some call ↔
      Plain call.argument ∧ key = call.text space ∧
        (∃ m ∈ calls, m.definition.returnType = call.returnType) ∧
        ∃ m ∈ calls, m.definition.verb = call.verb) ∧
    (∀ key, (registry.vocabulary.parse key).isSome → registry.vocabulary.inSpace key = true) ∧
    registry.len = (calls.map Registered.definition).dedup.length ∧
    (∀ d, d ∈ registry.definitions ↔ ∃ m ∈ calls, m.definition = d) ∧
    registry.definitions.Pairwise (Definition.Precedes space) := by
  intro registry
  have hfiled : registry.Filed := filed_defineAll space calls
  have hspace : registry.space = space := space_defineAll calls { space }
  have hpairwise : registry.definitions.Pairwise (Definition.Precedes space) :=
    hspace ▸ hfiled.pairwise_definitions
  refine ⟨fun phase key => ?_, fun phase key invocation factory => ?_,
    fun key call => parse_defineAll_iff hverbs, fun key hparse => ?_, ?_,
    fun d => mem_definitions_defineAll, hpairwise⟩
  · -- Whether a key calls a macro, and which one, is told by the last registration.
    rw [Option.isSome_iff_exists]
    constructor
    · rintro ⟨⟨invocation, factory⟩, hl⟩
      obtain ⟨call, m, hplain, htext, hlast, -⟩ := (lookup_defineAll_iff hverbs).mp hl
      exact ⟨call, hplain, htext, isSome_last?_iff.mp (Option.isSome_iff_exists.mpr ⟨m, hlast⟩)⟩
    · rintro ⟨call, hplain, htext, hm⟩
      obtain ⟨m, hlast⟩ := Option.isSome_iff_exists.mp (isSome_last?_iff.mpr hm)
      exact ⟨_, (lookup_defineAll_iff hverbs).mpr ⟨call, m, hplain, htext, hlast, rfl, rfl⟩⟩
  · rw [lookup_defineAll_iff hverbs]
    simp only [last?_eq_some_iff]
    constructor
    · rintro ⟨call, m, hplain, htext, ⟨hd, before, after, hcalls, hafter⟩, hmade⟩
      exact ⟨call, m, before, after, hplain, htext, hcalls, hd, hafter, hmade⟩
    · rintro ⟨call, m, before, after, hplain, htext, hcalls, hd, hafter, hmade⟩
      exact ⟨call, m, hplain, htext, ⟨hd, before, after, hcalls, hafter⟩, hmade⟩
  · obtain ⟨call, hcall⟩ := Option.isSome_iff_exists.mp hparse
    exact Vocabulary.inSpace_of_parse hcall
  · have hnodup : registry.definitions.Nodup := hpairwise.imp Definition.Precedes.ne
    -- Both lists have no repetition and the same entries, so they are equally long.
    have hperm : registry.definitions.Perm (calls.map Registered.definition).dedup := by
      refine (List.perm_ext_iff_of_nodup hnodup (List.nodup_dedup _)).mpr fun d => ?_
      rw [mem_definitions_defineAll, List.mem_dedup, List.mem_map]
    exact hperm.length_eq

/-- Of two registrations of a definition the second is called, with the argument of the key. -/
theorem defineAll_exact_of_redefined :
    let definition : Definition := ⟨.string, .scalars, "Read.All"⟩
    let registry := (defineAll [⟨definition, delete⟩, ⟨definition, encode [] .json⟩]
      { space := "my.space" }).value
    registry.lookup .scalars "my.space.String.Read.All(x)"
      = some (⟨definition, "my.space.String.Read.All", some "x"⟩, encode [] .json) := by
  intro definition registry
  have hverbs : ∀ m ∈ [(⟨definition, delete⟩ : Registered), ⟨definition, encode [] .json⟩],
      '(' ∉ m.definition.verb.toList := by
    intro m hm
    have hd : m.definition = definition := by
      simp only [List.mem_cons, List.not_mem_nil, or_false] at hm
      rcases hm with rfl | rfl <;> rfl
    rw [hd]
    decide
  refine ((defineAll_exact "my.space" _ hverbs).2.1 _ _ _ _).mpr
    ⟨⟨.string, "Read.All", some "x"⟩, ⟨definition, encode [] .json⟩, [⟨definition, delete⟩], [],
      ?_, by decide +kernel, rfl, rfl, by simp, ?_, rfl⟩
  · intro a ha
    obtain rfl := Option.some.inj ha
    decide
  · rfl

end Registry

end Expansion
