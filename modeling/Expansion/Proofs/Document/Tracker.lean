import Expansion.Document.Branch
import Expansion.Proofs.Text.Quoted
import Mathlib.Data.List.Induction
import Mathlib.Data.List.Nodup
import Mathlib.Logic.Relation

/-!
  What a tracker has issued.

  A tracker is asked for branches in any order and under any branch that it has issued, and some of
  the requests repeat earlier ones.  A `History` writes down the requests with their answers.  One
  request either issues one more branch or is refused and changes nothing (`ask_cases`).

  That a request repeats an earlier one is read off the branches, each of which knows its parent and
  its key (`History.mem_branches_iff`).  So branches of one parent have different keys, and this is
  enough for whole paths to differ: two branches of one path have the same last key and parents of
  one path, so they are the same by induction on the path (`Consistent.eq_of_path_eq`).  A text
  determines its path, so the texts differ too.
-/

namespace Expansion.Tracker

/-- Asks for the branch of a key under the branch with an identifier. -/
structure Request where
  parent : Nat
  key : Key
  node : Nat
  kind : Kind
  deriving DecidableEq, Repr

/-- The branch that a request asks for. -/
def Request.branch (request : Request) (id : Nat) (parent : Branch) : Branch :=
  ⟨id, some parent.id, some request.key, parent.path ++ [request.key],
    parent.text ++ request.key.text, request.kind, request.node⟩

/-- The answer to a request and the tracker after it, which is the old one when the request is
refused.  The identifier must be one that was issued. -/
def ask (tracker : Tracker) (request : Request) :
    Option (Except DocumentError Branch × Tracker) :=
  (tracker.get? request.parent).map fun parent =>
    match tracker.child parent request.key request.node request.kind with
    | .ok (branch, after) => (.ok branch, after)
    | .error e => (.error e, tracker)

/-- The requests made to a tracker so far, with their answers, and what has become of it. -/
inductive History (node : Nat) (kind : Kind) :
    List (Request × Except DocumentError Branch) → Tracker → Prop
  | start : History node kind [] (.start node kind)
  | ask {log : List (Request × Except DocumentError Branch)} {tracker after : Tracker}
    {request : Request} {answer : Except DocumentError Branch} (h : History node kind log tracker)
    (hask : tracker.ask request = some (answer, after)) :
    History node kind (log ++ [(request, answer)]) after

variable {node : Nat} {kind : Kind} {tracker after : Tracker} {request : Request}
  {answer : Except DocumentError Branch} {log : List (Request × Except DocumentError Branch)}
  {parent a b : Branch} {key : Key}

/-! ## One request -/

/-- A key was seen under a branch when the branch has a part under that key. -/
theorem seen_iff :
    tracker.seen parent key = true ↔
      ∃ b ∈ tracker.branches, b.parent = some parent.id ∧ b.key = some key := by
  simp [seen]

/-- A request for a key that was seen is refused. -/
theorem ask_of_seen (hp : tracker.get? request.parent = some parent)
    (hs : tracker.seen parent request.key = true) :
    tracker.ask request
      = some (.error (.duplicateKey parent.text request.key.text), tracker) := by
  simp [ask, hp, child, hs]

/-- A request for another key issues a branch. -/
theorem ask_of_not_seen (hp : tracker.get? request.parent = some parent)
    (hs : tracker.seen parent request.key = false) :
    tracker.ask request = some (.ok (request.branch tracker.len parent),
      ⟨tracker.branches ++ [request.branch tracker.len parent]⟩) := by
  simp [ask, hp, child, hs, Request.branch]

/-- All that a request can do.  It is under a branch that the tracker has, and refused when the key
was seen there, which changes nothing; otherwise the new branch comes behind the others. -/
theorem ask_cases (h : tracker.ask request = some (answer, after)) :
    ∃ parent, tracker.get? request.parent = some parent ∧
      (tracker.seen parent request.key = true ∧
          answer = .error (.duplicateKey parent.text request.key.text) ∧ after = tracker ∨
        tracker.seen parent request.key = false ∧
          answer = .ok (request.branch tracker.len parent) ∧
          after = ⟨tracker.branches ++ [request.branch tracker.len parent]⟩) := by
  cases hp : tracker.get? request.parent with
  | none =>
    rw [ask, hp] at h
    cases h
  | some parent =>
    refine ⟨parent, rfl, ?_⟩
    cases hs : tracker.seen parent request.key with
    | true =>
      rw [ask_of_seen hp hs] at h
      obtain ⟨rfl, rfl⟩ := Prod.mk.inj (Option.some.inj h)
      exact Or.inl ⟨rfl, rfl, rfl⟩
    | false =>
      rw [ask_of_not_seen hp hs] at h
      obtain ⟨rfl, rfl⟩ := Prod.mk.inj (Option.some.inj h)
      exact Or.inr ⟨rfl, rfl, rfl⟩

/-! ## What every tracker holds -/

/-- The branches of a tracker are numbered from the root on; every other one is the part of an
earlier one under a key, and no branch has two parts under one key. -/
structure Consistent (node : Nat) (kind : Kind) (tracker : Tracker) : Prop where
  root : tracker.get? 0 = some (.root node kind)
  numbered : ∀ i b, tracker.get? i = some b → b.id = i
  issued : ∀ b ∈ tracker.branches, b.id ≠ 0 →
    ∃ parent key, tracker.parentOf? b = some parent ∧ parent.id < b.id ∧
      b.parent = some parent.id ∧ b.key = some key ∧ b.path = parent.path ++ [key]
  written : ∀ b ∈ tracker.branches, b.text = b.path.text
  once : ∀ a ∈ tracker.branches, ∀ b ∈ tracker.branches,
    a.parent = b.parent → a.key = b.key → a = b

/-- Branches are found by their identifiers. -/
theorem get?_of_mem (hc : tracker.Consistent node kind) (hb : b ∈ tracker.branches) :
    tracker.get? b.id = some b := by
  obtain ⟨i, hi⟩ := List.mem_iff_getElem?.mp hb
  rwa [hc.numbered i b hi]

/-- What is found is one of the branches. -/
theorem mem_of_get? {i : Nat} (h : tracker.get? i = some b) : b ∈ tracker.branches :=
  List.mem_of_getElem? h

/-- Only the root has no parent. -/
theorem Consistent.eq_root (hc : tracker.Consistent node kind) (hb : b ∈ tracker.branches)
    (h0 : b.id = 0) : b = .root node kind := by
  have hget := get?_of_mem hc hb
  rw [h0, hc.root] at hget
  exact (Option.some.inj hget).symm

/-- A tracker starts with the root and nothing else. -/
theorem consistent_start (node : Nat) (kind : Kind) :
    (start node kind).Consistent node kind := by
  have honly : ∀ b ∈ (start node kind).branches, b = .root node kind :=
    fun b hb => List.mem_singleton.mp hb
  refine ⟨rfl, fun i b hb => ?_, fun b hb h0 => ?_, fun b hb => ?_, fun a ha b hb _ _ => ?_⟩
  · cases i with
    | zero => rw [← Option.some.inj hb]; rfl
    | succ i => cases hb
  · rw [honly b hb] at h0
    exact absurd rfl h0
  · rw [honly b hb]
    rfl
  · rw [honly a ha, honly b hb]

/-- What a tracker finds after one more branch is what it found before, or that branch.  Branches
are found by position, so what comes at the end is found at the old length. -/
theorem get?_issued {i : Nat} (h : (Tracker.mk (tracker.branches ++ [a])).get? i = some b) :
    tracker.get? i = some b ∨ i = tracker.len ∧ b = a := by
  rcases Nat.lt_or_ge i tracker.len with hi | hi
  · exact Or.inl ((List.getElem?_append_left hi).symm.trans h)
  · have hlast := (List.getElem?_append_right hi).symm.trans h
    rw [List.getElem?_singleton] at hlast
    obtain ⟨hzero, hsame⟩ := Option.ite_none_right_eq_some.mp hlast
    exact Or.inr ⟨Nat.le_antisymm (Nat.sub_eq_zero_iff_le.mp hzero) hi,
      (Option.some.inj hsame).symm⟩

/-- The branches issued before keep their parents. -/
theorem parentOf?_append {p : Branch} (h : tracker.parentOf? b = some p) (more : List Branch) :
    (Tracker.mk (tracker.branches ++ more)).parentOf? b = some p := by
  obtain ⟨i, hi, hp⟩ := Option.bind_eq_some_iff.mp h
  refine Option.bind_eq_some_iff.mpr ⟨i, hi, ?_⟩
  exact (List.getElem?_append_left (List.getElem?_eq_some_iff.mp hp).1).trans hp

/-- A request that is not refused keeps a tracker consistent.  What is said of the earlier branches
stays, since they keep their positions.  The new one has the last number, its parent is one of them,
and under that parent its key is new. -/
theorem Consistent.issue (hc : tracker.Consistent node kind)
    (hp : tracker.get? request.parent = some parent)
    (hs : tracker.seen parent request.key = false) :
    Consistent node kind ⟨tracker.branches ++ [request.branch tracker.len parent]⟩ := by
  have hmem := mem_of_get? hp
  have hnumber : parent.id = request.parent := hc.numbered _ _ hp
  have hlt : parent.id < tracker.len :=
    hnumber ▸ (List.getElem?_eq_some_iff.mp hp).1
  -- The new branch shares its parent and its key with no other one.
  have hnew : ∀ b ∈ tracker.branches, b.parent = some parent.id → b.key ≠ some request.key :=
    fun b hb hparent hkey =>
      Bool.false_ne_true (hs.symm.trans (seen_iff.mpr ⟨b, hb, hparent, hkey⟩))
  refine ⟨?_, fun i b hb => ?_, fun b hb h0 => ?_, fun b hb => ?_,
    fun a ha b hb hparent hkey => ?_⟩
  · exact (List.getElem?_append_left (List.getElem?_eq_some_iff.mp hc.root).1).trans hc.root
  · rcases get?_issued hb with hold | ⟨rfl, rfl⟩
    · exact hc.numbered i b hold
    · rfl
  · rcases List.mem_append.mp hb with hb | hb
    · obtain ⟨p, key, hparent, hrest⟩ := hc.issued b hb h0
      exact ⟨p, key, parentOf?_append hparent _, hrest⟩
    · obtain rfl := List.mem_singleton.mp hb
      refine ⟨parent, request.key, ?_, hlt, rfl, rfl, rfl⟩
      refine parentOf?_append ?_ _
      exact (congrArg tracker.get? hnumber).trans hp
  · rcases List.mem_append.mp hb with hb | hb
    · exact hc.written b hb
    · obtain rfl := List.mem_singleton.mp hb
      show parent.text ++ request.key.text = Path.text (parent.path ++ [request.key])
      rw [hc.written parent hmem, Path.text_concat]
  · rcases List.mem_append.mp ha with ha | ha <;> rcases List.mem_append.mp hb with hb | hb
    · exact hc.once a ha b hb hparent hkey
    · obtain rfl := List.mem_singleton.mp hb
      exact absurd hkey (hnew a ha hparent)
    · obtain rfl := List.mem_singleton.mp ha
      exact absurd hkey.symm (hnew b hb hparent.symm)
    · rw [List.mem_singleton.mp ha, List.mem_singleton.mp hb]

/-- No request makes a tracker inconsistent. -/
theorem Consistent.ask (hc : tracker.Consistent node kind)
    (hask : tracker.ask request = some (answer, after)) : after.Consistent node kind := by
  obtain ⟨parent, hp, ⟨-, -, rfl⟩ | ⟨hs, -, rfl⟩⟩ := ask_cases hask
  · exact hc
  · exact hc.issue hp hs

/-- Whatever was asked, the tracker is consistent. -/
theorem History.consistent (h : History node kind log tracker) : tracker.Consistent node kind := by
  induction h with
  | start => exact consistent_start node kind
  | ask _ hask ih => exact ih.ask hask

/-- Branches are there for the requests that were granted.  By induction on the requests: a refused
one adds no branch, and a granted one adds the branch for its own parent and key. -/
theorem History.mem_branches_iff (h : History node kind log tracker) {id : Nat} :
    (∃ b ∈ tracker.branches, b.parent = some id ∧ b.key = some key) ↔
      ∃ earlier b, (earlier, .ok b) ∈ log ∧ earlier.parent = id ∧ earlier.key = key := by
  induction h with
  | start => simp [Tracker.start, Branch.root]
  | @ask log tracker after request answer h hask ih =>
    obtain ⟨parent, hp, ⟨-, rfl, rfl⟩ | ⟨-, rfl, rfl⟩⟩ := ask_cases hask
    · simp only [List.mem_append, List.mem_singleton, Prod.mk.injEq, reduceCtorEq, and_false,
        or_false]
      exact ih
    · -- A request was granted: the new branch is the one for it.
      have hnumber : parent.id = request.parent := h.consistent.numbered _ _ hp
      constructor
      · rintro ⟨b, hb, hparent, hkey⟩
        rcases List.mem_append.mp hb with hb | hb
        · obtain ⟨earlier, b', hm, hrest⟩ := ih.mp ⟨b, hb, hparent, hkey⟩
          exact ⟨earlier, b', List.mem_append_left _ hm, hrest⟩
        · obtain rfl := List.mem_singleton.mp hb
          refine ⟨request, _, List.mem_append_right _ List.mem_cons_self, ?_, ?_⟩
          · exact hnumber.symm.trans (Option.some.inj hparent)
          · exact Option.some.inj hkey
      · rintro ⟨earlier, b, hm, rfl, rfl⟩
        rcases List.mem_append.mp hm with hm | hm
        · obtain ⟨b', hb', hrest⟩ := ih.mpr ⟨earlier, b, hm, rfl, rfl⟩
          exact ⟨b', List.mem_append_left _ hb', hrest⟩
        · obtain ⟨rfl, -⟩ := Prod.mk.inj (List.mem_singleton.mp hm)
          exact ⟨_, List.mem_append_right _ List.mem_cons_self, congrArg some hnumber, rfl⟩

/-! ## Paths -/

/-- Every branch but the root has a path that ends with its key. -/
theorem Consistent.path_eq_nil_iff (hc : tracker.Consistent node kind)
    (hb : b ∈ tracker.branches) : b.path = [] ↔ b.id = 0 := by
  constructor
  · intro hnil
    refine Decidable.by_contra fun h0 => ?_
    obtain ⟨p, key, -, -, -, -, hpath⟩ := hc.issued b hb h0
    exact List.concat_ne_nil key p.path (hpath.symm.trans hnil)
  · intro h0
    rw [hc.eq_root hb h0]
    rfl

/-- A path leads to one branch. -/
theorem Consistent.eq_of_path_eq (hc : tracker.Consistent node kind) (ha : a ∈ tracker.branches)
    (hb : b ∈ tracker.branches) (h : a.path = b.path) : a = b := by
  generalize hpath : a.path = path at h
  induction path using List.reverseRecOn generalizing a b with
  | nil =>
    rw [hc.eq_root ha ((hc.path_eq_nil_iff ha).mp hpath),
      hc.eq_root hb ((hc.path_eq_nil_iff hb).mp h.symm)]
  | append_singleton front last ih =>
    have ha0 : a.id ≠ 0 := fun h0 => by simp [(hc.path_eq_nil_iff ha).mpr h0] at hpath
    have hb0 : b.id ≠ 0 := fun h0 => by simp [(hc.path_eq_nil_iff hb).mpr h0] at h
    obtain ⟨p, key, hp, -, hpid, hkey, hpp⟩ := hc.issued a ha ha0
    obtain ⟨q, key', hq, -, hqid, hkey', hqp⟩ := hc.issued b hb hb0
    -- Both paths are that of the parent and the key, so the parents have the same path and the keys
    -- are the same.
    obtain ⟨rfl, hl⟩ := List.append_inj' (hpp.symm.trans hpath) rfl
    obtain ⟨hpq, hl'⟩ := List.append_inj' (h.trans hqp) rfl
    have hsame : key = key' := List.singleton_inj.mp (hl.trans hl')
    obtain ⟨i, -, hi⟩ := Option.bind_eq_some_iff.mp hp
    obtain ⟨j, -, hj⟩ := Option.bind_eq_some_iff.mp hq
    obtain rfl : p = q := ih (mem_of_get? hi) (mem_of_get? hj) rfl hpq
    exact hc.once a ha b hb (hpid.trans hqid.symm) (by rw [hkey, hkey', hsame])

/-- Climbing from parent to parent ends at the root, since identifiers fall. -/
theorem Consistent.climbs (hc : tracker.Consistent node kind) (hb : b ∈ tracker.branches) :
    Relation.ReflTransGen (fun b p => tracker.parentOf? b = some p) b (.root node kind) := by
  induction hid : b.id using Nat.strongRecOn generalizing b with
  | ind i ih =>
    by_cases h0 : b.id = 0
    · rw [hc.eq_root hb h0]
    · obtain ⟨p, -, hp, hlt, -⟩ := hc.issued b hb h0
      obtain ⟨j, -, hj⟩ := Option.bind_eq_some_iff.mp hp
      exact .head hp (ih p.id (hid ▸ hlt) (mem_of_get? hj) rfl)

/-- Branches differ, since their identifiers do. -/
theorem Consistent.nodup_branches (hc : tracker.Consistent node kind) : tracker.branches.Nodup := by
  refine List.nodup_iff_getElem?_ne_getElem?.mpr fun i j hij hj heq => ?_
  have hi : tracker.get? i = some tracker.branches[j] :=
    heq.trans (List.getElem?_eq_getElem hj)
  have hsame := hc.numbered i _ hi
  exact absurd (hsame.symm.trans (hc.numbered j _ (List.getElem?_eq_getElem hj))) (Nat.ne_of_lt hij)

/-- Whatever requests a tracker has answered, its branches are numbered from the root on, each other
one is the part of an earlier one under its key and has the text of its path, every one is below the
root, and no two have the same path or the same text.  A further request under a branch that was
issued is refused exactly when the same key was granted under that branch before; then the tracker
stays as it is, and otherwise it has one branch more. -/
theorem History.issues_once (h : History node kind log tracker) :
    tracker.Consistent node kind ∧
    (∀ b ∈ tracker.branches,
      Relation.ReflTransGen (fun b p => tracker.parentOf? b = some p) b (.root node kind)) ∧
    (tracker.branches.map Branch.path).Nodup ∧
    (tracker.branches.map Branch.text).Nodup ∧
    ∀ request parent, tracker.get? request.parent = some parent →
      ∃ answer after, tracker.ask request = some (answer, after) ∧
        ((∃ e, answer = .error e) ↔
          ∃ earlier b, (earlier, .ok b) ∈ log ∧ earlier.parent = request.parent ∧
            earlier.key = request.key) ∧
        (∀ e, answer = .error e →
          e = .duplicateKey parent.text request.key.text ∧ after = tracker) ∧
        ∀ b, answer = .ok b →
          b = request.branch tracker.len parent ∧ after.branches = tracker.branches ++ [b] := by
  have hc := h.consistent
  refine ⟨hc, fun b hb => hc.climbs hb, ?_, ?_, fun request parent hp => ?_⟩
  · exact hc.nodup_branches.map_on fun a ha b hb heq => hc.eq_of_path_eq ha hb heq
  · refine hc.nodup_branches.map_on fun a ha b hb heq => hc.eq_of_path_eq ha hb ?_
    rw [hc.written a ha, hc.written b hb] at heq
    exact Path.text_injective heq
  · have hnumber : parent.id = request.parent := hc.numbered _ _ hp
    have hseen : tracker.seen parent request.key = true ↔ _ := seen_iff.trans h.mem_branches_iff
    rw [hnumber] at hseen
    -- Whether the key was seen is whether it was granted before.
    cases hs : tracker.seen parent request.key with
    | true =>
      refine ⟨_, _, ask_of_seen hp hs, iff_of_true ⟨_, rfl⟩ (hseen.mp hs), ?_, ?_⟩
      · intro e he
        obtain rfl := Except.error.inj he
        exact ⟨rfl, rfl⟩
      · intro b hb
        cases hb
    | false =>
      have hnew : ¬ ∃ earlier b, (earlier, .ok b) ∈ log ∧ earlier.parent = request.parent ∧
          earlier.key = request.key :=
        fun hlog => Bool.false_ne_true (hs.symm.trans (hseen.mpr hlog))
      refine ⟨_, _, ask_of_not_seen hp hs, iff_of_false (by simp) hnew, ?_, ?_⟩
      · intro e he
        cases he
      · intro b hb
        obtain rfl := Except.ok.inj hb
        exact ⟨rfl, rfl⟩

/-- The same element is asked for twice: the second request is refused, and so is every further one.
-/
theorem History.issues_once_of_repeat :
    let request : Request := ⟨0, .index 3, 1, .object⟩
    let branch : Branch := ⟨1, some 0, some (.index 3), [.index 3], "$[3]", .object, 1⟩
    let refusal : DocumentError := .duplicateKey "$" "[3]"
    let tracker : Tracker := ⟨[.root 0 .array, branch]⟩
    History 0 .array [(request, .ok branch), (request, .error refusal)] tracker ∧
      tracker.ask request = some (.error refusal, tracker) := by
  intro request branch refusal tracker
  have hfirst : (Tracker.start 0 .array).ask request = some (.ok branch, tracker) := by
    decide +kernel
  have hsecond : tracker.ask request = some (.error refusal, tracker) := by decide +kernel
  have hlog : History 0 .array [(request, .ok branch), (request, .error refusal)] tracker :=
    .ask (.ask .start hfirst) hsecond
  obtain ⟨-, -, -, -, hnext⟩ := hlog.issues_once
  obtain ⟨answer, after, hask, hiff, herror, -⟩ := hnext request (.root 0 .array) rfl
  obtain ⟨e, rfl⟩ := hiff.mpr ⟨request, branch, List.mem_cons_self, rfl, rfl⟩
  obtain ⟨rfl, rfl⟩ := herror e rfl
  exact ⟨hlog, hask⟩

end Expansion.Tracker
