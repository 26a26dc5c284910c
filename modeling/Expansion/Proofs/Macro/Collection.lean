import Expansion.Proofs.Macro.Registry
import Expansion.Proofs.Macro.Yield
import Expansion.Proofs.Value.Occurrences

/-!
  A walk collects the modifier of every macro key, once.

  The branches shown for marked fields are the occurrences of marked fields in the value of the
  document, in the same order (`Document.paths_shown`).  No path occurs twice, and modifiers are
  filed under the text of their path, which tells the path (`Path.text_injective`).  So where macros
  bind their modifiers to the key that calls them (`Registry.Binds`), no modifier takes the place of
  another one, and what is pending after a walk are the modifiers of the keys that call a macro,
  one for each occurrence (`Evaluator.walk_collects_every_key`).
-/

namespace Expansion

/-! ## Marked branches -/

/-- The branch of a field with a marked name. -/
def Branch.isMarked (marked : String → Bool) (branch : Branch) : Bool :=
  branch.fieldName?.any marked

/-- A branch is marked when it is that of a field with a marked name. -/
theorem Branch.isMarked_iff {marked : String → Bool} {branch : Branch} :
    branch.isMarked marked = true ↔ ∃ name, branch.fieldName? = some name ∧ marked name = true := by
  rw [isMarked, Option.any_eq_true]

namespace Node

variable {marked : String → Bool}

/-- The paths of the marked branches. -/
def markedPaths (marked : String → Bool) (branches : List Branch) : List Path :=
  (branches.filter (Branch.isMarked marked)).map Branch.path

/-- The marked branches of a part, of what is below it, and of the parts after it.  This is the step
of the three inductions below, one for the elements of an array, one for the fields of an object,
and one for the node. -/
theorem markedPaths_part {parent : Branch} {key : Key} {inner others : List Branch}
    {innerPaths otherPaths : List Path} (next : Nat) (n : Node)
    (hi : markedPaths marked inner = innerPaths.map ((parent.path ++ [key]) ++ ·))
    (ho : markedPaths marked others = otherPaths.map (parent.path ++ ·)) :
    markedPaths marked (parent.child next key n :: (inner ++ others))
      = (Value.under key (key.name?.any marked) innerPaths ++ otherPaths).map
          (parent.path ++ ·) := by
  have hown : (parent.child next key n).isMarked marked = key.name?.any marked := rfl
  have hbelow : markedPaths marked (inner ++ others)
      = (innerPaths.map (key :: ·) ++ otherPaths).map (parent.path ++ ·) := by
    rw [markedPaths, List.filter_append, List.map_append]
    show markedPaths marked inner ++ markedPaths marked others = _
    rw [hi, ho]
    simp
  cases hk : key.name?.any marked with
  | false =>
    rw [markedPaths, List.filter_cons_of_neg (by rw [hown, hk]; exact Bool.false_ne_true)]
    exact hbelow
  | true =>
    rw [markedPaths, List.filter_cons_of_pos (hown.trans hk), List.map_cons]
    exact congrArg (List.cons (parent.path ++ [key])) hbelow

mutual

/-- The marked branches below a branch are the occurrences in the value of the node. -/
theorem markedPaths_branchesBelow (parent : Branch) (next : Nat) :
    (n : Node) → markedPaths marked (branchesBelow parent next n)
      = (n.value.occurrences marked).map (parent.path ++ ·)
  | scalar _ _ => rfl
  | array _ items => markedPaths_branchesItems parent next 0 items
  | object _ fields => markedPaths_branchesFields parent next fields

/-- The marked branches of the elements of an array are the occurrences in their values. -/
theorem markedPaths_branchesItems (parent : Branch) (next i : Nat) :
    (items : List Node) → markedPaths marked (branchesItems parent next i items)
      = (Value.occurrencesItems marked i (valueItems items)).map (parent.path ++ ·)
  | [] => rfl
  | n :: rest =>
    markedPaths_part next n (markedPaths_branchesBelow (parent.child next (.index i) n) _ n)
      (markedPaths_branchesItems parent _ (i + 1) rest)

/-- The marked branches of the fields of an object are the occurrences in their values. -/
theorem markedPaths_branchesFields (parent : Branch) (next : Nat) :
    (fields : List (String × Node)) → markedPaths marked (branchesFields parent next fields)
      = (Value.occurrencesFields marked (valueFields fields)).map (parent.path ++ ·)
  | [] => rfl
  | (name, n) :: rest =>
    markedPaths_part next n (markedPaths_branchesBelow (parent.child next (.field name) n) _ n)
      (markedPaths_branchesFields parent _ rest)

end

end Node

/-- The marked branches that a walk shows are the occurrences in the value of the document. -/
theorem Document.paths_shown (marked : String → Bool) (doc : Document) :
    Node.markedPaths marked doc.shown = doc.toValue.occurrences marked := by
  rw [shown, Node.markedPaths_branchesBelow]
  exact List.map_id _

/-! ## Filing modifiers -/

namespace Pending

variable {pending : Pending} {m : Modifier}

/-- Where nothing is pending, nothing is filed wrongly. -/
theorem filed_empty : ({} : Pending).Filed := fun _ he => absurd he List.not_mem_nil

/-- Nothing is filed for a path at which no modifier is pending. -/
theorem Filed.get?_eq_none (h : pending.Filed) (hne : ∀ other ∈ pending.all, other.path ≠ m.path) :
    pending.get? m.text = none := by
  cases hg : pending.get? m.text with
  | none => rfl
  | some other =>
    have hin := Fields.mem_of_find? hg
    have htext : m.text = other.text := h _ hin
    exact absurd (Path.text_injective htext).symm (hne other (List.mem_map.mpr ⟨_, hin, rfl⟩))

/-- The paths of what is filed differ.  Modifiers are filed under different texts, and different
texts are those of different paths. -/
theorem Filed.nodup_paths (h : pending.Filed) (ho : pending.Ordered) :
    (pending.all.map Modifier.path).Nodup := by
  rw [all, List.map_map]
  refine List.pairwise_map.mpr (List.Pairwise.imp_of_mem (fun {a b} ha hb hlt heq => ?_) ho)
  have hname : a.1 = b.1 := (h a ha).trans ((congrArg Path.text heq).trans (h b hb).symm)
  exact String.lt_irrefl _ (hname ▸ hlt)

end Pending

/-! ## Macros that bind their modifiers -/

namespace Macro

/-- Whatever modifier a factory makes is bound to the path that is visited. -/
def Binds (factory : Factory) : Prop :=
  ∀ context branch invocation m, (factory context branch invocation).value = .ok m →
    m.path = branch.path

/-- A lookup binds its modifier. -/
theorem binds_lookup (attributes : Attributes) : Binds (lookup attributes) := by
  intro context branch invocation m h
  obtain ⟨found, -, hm⟩ := value_lookup_eq_ok_iff.mp h
  rcases modifierFor_eq_ok_iff.mp hm with ⟨-, rfl⟩ | ⟨-, x, instructions, -, -, rfl⟩
  · rfl
  · rfl

/-- An encoder binds its modifier. -/
theorem binds_encode (accepted : List Kind) (form : Transform) : Binds (encode accepted form) := by
  intro context branch invocation m h
  obtain ⟨-, rfl⟩ := value_encode_eq_ok_iff.mp h
  rfl

/-- A deletion binds its modifier. -/
theorem binds_delete : Binds delete := by
  intro context branch invocation m h
  obtain ⟨-, rfl⟩ := value_delete_eq_ok_iff.mp h
  rfl

end Macro

namespace Registry

/-- Every macro of the registry binds its modifiers to the path that is visited. -/
def Binds (registry : Registry) : Prop :=
  ∀ phase, ∀ entry ∈ registry.macros phase, Macro.Binds entry.2.factory

/-- A registry of macros that bind their modifiers does so. -/
theorem ConsistsOf.binds {registry : Registry} {macros : List Macro.Registered}
    (h : registry.ConsistsOf macros) (hm : ∀ m ∈ macros, Macro.Binds m.factory) :
    registry.Binds :=
  fun phase entry he => hm entry.2 (h phase entry he).1

/-- The built-in macros do. -/
theorem binds_withBuiltins (space : String) (attributes : Attributes) :
    (withBuiltins space attributes).value.Binds := by
  rw [value_withBuiltins]
  refine (consistsOf_builtin space attributes).binds fun m hm => ?_
  rcases Macro.factory_of_mem_builtins hm with h | ⟨accepted, form, h⟩ | h
  · exact h ▸ Macro.binds_lookup attributes
  · exact h ▸ Macro.binds_encode accepted form
  · exact h ▸ Macro.binds_delete

/-- What a key calls binds its modifiers. -/
theorem Binds.of_lookup {registry : Registry} (h : registry.Binds) {phase : Phase} {key : String}
    {invocation : Macro.Invocation} {factory : Macro.Factory}
    (hl : registry.lookup phase key = some (invocation, factory)) : Macro.Binds factory := by
  obtain ⟨call, m, -, hfind, -, rfl⟩ := lookup_eq_some_iff.mp hl
  exact h phase _ (Fields.mem_of_find? hfind)

end Registry

/-! ## Walks -/

namespace Evaluator

variable {evaluator : Evaluator} {resolve : Resolve} {phase : Phase} {doc : Document}
  {branch : Branch} {branches : List Branch} {pending pending' : Pending} {m : Modifier}

/-- The keys that call a macro of the phase. -/
def calls (evaluator : Evaluator) (phase : Phase) (key : String) : Bool :=
  (evaluator.registry.lookup phase key).isSome

/-- A modifier that is contributed is bound to a branch whose key calls a macro. -/
theorem isMarked_of_yield (hb : evaluator.registry.Binds)
    (hy : evaluator.yield resolve phase doc branch = .ok (some m)) :
    branch.isMarked (evaluator.calls phase) = true ∧ m.path = branch.path := by
  obtain ⟨key, invocation, factory, hkey, hl, hf⟩ := exists_lookup_of_yield hy
  exact ⟨Branch.isMarked_iff.mpr ⟨key, hkey, by rw [calls, hl]; rfl⟩, hb.of_lookup hl _ _ _ _ hf⟩

/-- A branch whose key calls a macro contributes its modifier, if no error. -/
theorem exists_of_isMarked {found : Option Modifier}
    (hy : evaluator.yield resolve phase doc branch = .ok found)
    (hm : branch.isMarked (evaluator.calls phase) = true) : ∃ m, found = some m := by
  obtain ⟨key, hkey, hcalls⟩ := Branch.isMarked_iff.mp hm
  obtain ⟨⟨invocation, factory⟩, hl⟩ := Option.isSome_iff_exists.mp hcalls
  rw [yield_of_lookup hkey hl] at hy
  cases hf : (factory ⟨doc, phase, evaluator.registry.space, resolve⟩ branch invocation).value with
  | error e => simp [hf, Except.map] at hy
  | ok m =>
    rw [hf] at hy
    exact ⟨m, (Except.ok.inj hy).symm⟩

/-- Visits file modifiers under their own texts. -/
theorem filed_of_visitAll (hf : pending.Filed)
    (hv : visitAll (evaluator.visit resolve phase doc) branches pending = .ok pending') :
    pending'.Filed :=
  of_visitAll (P := Pending.Filed) (fun _ m h => h.add m) hf hv

/-- What a branch contributes stays pending at its path.  What comes later takes its place at most
at the same path, where something is pending then, too. -/
theorem at_of_visitAll (hf : pending.Filed) (hm : branch ∈ branches)
    (hy : evaluator.yield resolve phase doc branch = .ok (some m))
    (hv : visitAll (evaluator.visit resolve phase doc) branches pending = .ok pending') :
    pending'.At m.path := by
  obtain ⟨before, after, rfl⟩ := List.append_of_mem hm
  rw [visitAll_append] at hv
  cases hb : visitAll (evaluator.visit resolve phase doc) before pending with
  | error e => simp [hb, Except.bind] at hv
  | ok earlier =>
    have hfiled : earlier.Filed := filed_of_visitAll hf hb
    rw [hb, Except.bind, visitAll, value_visit_eq_yield, hy] at hv
    refine (of_visitAll (P := fun p => p.Filed ∧ p.At m.path)
      (fun p other h => ⟨h.1.add other, h.2.add h.1 other⟩) ?_ hv).2
    exact ⟨hfiled.add m, Pending.at_add_self m earlier⟩

/-- After a walk, a modifier is pending for each key that calls a macro of the phase.  Both lists
are without repetition, so it is enough that they have the same members: a modifier comes from a
branch whose key calls a macro, and such a branch contributes one. -/
theorem perm_paths_of_walk (hb : evaluator.registry.Binds) (h : doc.InShape)
    (hw : (evaluator.walkWith resolve phase doc).value = .ok pending) :
    (pending.all.map Modifier.path).Perm (doc.toValue.occurrences (evaluator.calls phase)) := by
  have hv := visitAll_of_walk h hw
  have hfiled : pending.Filed := filed_of_visitAll Pending.filed_empty hv
  have hnodup := hfiled.nodup_paths (ordered_of_walk h hw)
  refine (List.perm_ext_iff_of_nodup hnodup (Value.nodup_occurrences _ h.ordered)).mpr
    fun path => ?_
  rw [← Document.paths_shown, Node.markedPaths, List.mem_map, List.mem_map]
  constructor
  · rintro ⟨m, hm, rfl⟩
    obtain ⟨branch, hshown, hy⟩ := exists_yield_of_mem_all h hw hm
    obtain ⟨hmarked, hpath⟩ := isMarked_of_yield hb hy
    exact ⟨branch, List.mem_filter.mpr ⟨hshown, hmarked⟩, hpath.symm⟩
  · rintro ⟨branch, hin, rfl⟩
    obtain ⟨hshown, hmarked⟩ := List.mem_filter.mp hin
    obtain ⟨found, hy⟩ := ((exists_walk_iff h).mp ⟨pending, hw⟩).2 branch hshown
    obtain ⟨m, rfl⟩ := exists_of_isMarked hy hmarked
    obtain ⟨m', hm', hpath⟩ := at_of_visitAll Pending.filed_empty hshown hy hv
    exact ⟨m', hm', hpath.trans (isMarked_of_yield hb hy).2⟩

/-- When a branch contributes a modifier, nothing is filed at its path yet. -/
theorem get?_eq_none_of_yield (hb : evaluator.registry.Binds) (h : doc.InShape)
    {before after : List Branch} (hs : doc.shown = before ++ branch :: after)
    (hv : visitAll (evaluator.visit resolve phase doc) before {} = .ok pending)
    (hy : evaluator.yield resolve phase doc branch = .ok (some m)) :
    pending.get? m.text = none := by
  have hfiled : pending.Filed := filed_of_visitAll Pending.filed_empty hv
  refine hfiled.get?_eq_none fun other ho heq => ?_
  rcases mem_all_of_visitAll hv ho with hin | ⟨earlier, hearlier, hy'⟩
  · cases hin
  obtain ⟨hmarked, hpath⟩ := isMarked_of_yield hb hy
  obtain ⟨hmarked', hpath'⟩ := isMarked_of_yield hb hy'
  -- The two branches would be at one path, but no path occurs twice.
  have hnodup : (doc.toValue.occurrences (evaluator.calls phase)).Nodup :=
    Value.nodup_occurrences _ h.ordered
  rw [← Document.paths_shown, hs, Node.markedPaths, List.filter_append, List.map_append,
    List.filter_cons_of_pos hmarked, List.map_cons] at hnodup
  have hin : earlier.path ∈ (before.filter (Branch.isMarked (evaluator.calls phase))).map
      Branch.path := List.mem_map.mpr ⟨earlier, List.mem_filter.mpr ⟨hearlier, hmarked'⟩, rfl⟩
  refine (List.nodup_append.mp hnodup).2.2 _ hin _ List.mem_cons_self ?_
  rw [← hpath, ← hpath', heq]

/-- The built-in macros bind their modifiers to the key that calls them.  With macros that do, a
walk that does not stop leaves pending exactly one modifier for each occurrence of a key that calls
a macro of the phase: at any depth, in arrays and in the values of other macros.  The modifier is
bound to the path of the key and is what the macro of the key makes there.  No modifier takes the
place of another one on the way, and when all are run their number is that of the occurrences. -/
theorem walk_collects_every_key :
    (∀ space attributes, (Registry.withBuiltins space attributes).value.Binds) ∧
    ∀ evaluator : Evaluator, evaluator.registry.Binds → ∀ doc : Document, doc.Reachable →
    ∀ phase pending, (evaluator.walk phase doc).value = .ok pending →
      let keys := doc.toValue.occurrences (evaluator.calls phase)
      keys.Nodup ∧
      (∀ path, path ∈ keys ↔
        doc.toValue.Occurs (fun key => (evaluator.registry.lookup phase key).isSome) path) ∧
      (pending.all.map Modifier.path).Perm keys ∧
      (∀ m ∈ pending.all, ∃ branch ∈ doc.shown, branch.path = m.path ∧
        ∃ key invocation factory, branch.fieldName? = some key ∧
          evaluator.registry.lookup phase key = some (invocation, factory) ∧
          (factory ⟨doc, phase, evaluator.registry.space, evaluator.resolveFully⟩ branch
            invocation).value = .ok m) ∧
      (∀ before branch after earlier m, doc.shown = before ++ branch :: after →
        visitAll (evaluator.visit evaluator.resolveFully phase doc) before {} = .ok earlier →
        evaluator.yield evaluator.resolveFully phase doc branch = .ok (some m) →
        (earlier.insert m).value.1 = none) ∧
      ∀ count doc', (pending.applyAll doc).value = (.ok count, doc') → count = keys.length := by
  refine ⟨Registry.binds_withBuiltins, fun evaluator hb doc hr phase pending hw => ?_⟩
  have h := hr.inShape
  have hperm := perm_paths_of_walk hb h hw
  refine ⟨Value.nodup_occurrences _ h.ordered, fun path => Value.mem_occurrences_iff h.ordered,
    hperm, fun m hm => ?_, fun before branch after earlier m hs hv hy => ?_,
    fun count doc' ha => ?_⟩
  · obtain ⟨branch, hshown, hy⟩ := exists_yield_of_mem_all h hw hm
    exact ⟨branch, hshown, (isMarked_of_yield hb hy).2.symm, exists_lookup_of_yield hy⟩
  · rw [Pending.value_insert]
    exact get?_eq_none_of_yield hb h hs hv hy
  · -- The count of modifiers that have run is that of the pending ones, hence that of the
    -- occurrences.
    have hlen : pending.len = (doc.toValue.occurrences (evaluator.calls phase)).length := by
      rw [← hperm.length_eq, List.length_map, Pending.all, List.length_map, Pending.len]
    rw [← hlen]
    rw [Pending.applyAll, Edit.value_bind] at ha
    rcases hd : (Modifier.applyEach pending.inOrder doc).value with ⟨e | ⟨⟩, d⟩
    · rw [hd] at ha
      cases ha
    · rw [hd] at ha
      exact (Except.ok.inj (Prod.mk.inj ha).1).symm

/-- A key in an object, one in an array and one in the value of the latter are collected. -/
theorem walk_collects_every_key_nested :
    let evaluator : Evaluator :=
      ⟨(Registry.withBuiltins "x" []).value, { space := "x" }, false⟩
    let doc := Document.ofValue (.object
      [("a", .object [("x.Null.Delete", .string "s")]),
       ("b", .array [.object [("x.Null.Delete", .object [("x.Null.Delete", .string "t")])]])])
    ∃ pending, (evaluator.walk .directives doc).value = .ok pending ∧
      (pending.all.map Modifier.path).Perm
        [[.field "a", .field "x.Null.Delete"],
         [.field "b", .index 0, .field "x.Null.Delete"],
         [.field "b", .index 0, .field "x.Null.Delete", .field "x.Null.Delete"]] := by
  intro evaluator doc
  have hcall : ∀ v : Value, v.Ordered → (Value.object [("x.Null.Delete", v)]).Ordered := fun v hv =>
    ⟨List.pairwise_singleton _ _, hv, trivial⟩
  have hr : doc.Reachable := .ofValue ⟨List.pairwise_pair.mpr (by decide), hcall _ trivial,
    ⟨hcall _ (hcall _ trivial), trivial⟩, trivial⟩
  have hcollects := walk_collects_every_key
  have hb : evaluator.registry.Binds := hcollects.1 "x" []
  have hsome : (evaluator.walk .directives doc).value.toOption.isSome = true := by decide +kernel
  -- The occurrences are read off the value, without walking the document.
  have hkeys : doc.toValue.occurrences (evaluator.calls .directives)
      = [[.field "a", .field "x.Null.Delete"],
         [.field "b", .index 0, .field "x.Null.Delete"],
         [.field "b", .index 0, .field "x.Null.Delete", .field "x.Null.Delete"]] := by
    decide +kernel
  match hw : (evaluator.walk .directives doc).value with
  | .error e =>
    rw [hw] at hsome
    cases hsome
  | .ok pending =>
    obtain ⟨-, -, hperm, -⟩ := hcollects.2 evaluator hb doc hr .directives pending hw
    exact ⟨pending, rfl, hkeys ▸ hperm⟩

end Evaluator

end Expansion
