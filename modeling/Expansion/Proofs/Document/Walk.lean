import Expansion.Document.Walk
import Expansion.Proofs.Document.Refinement
import Expansion.Proofs.Path

/-!
  A walk comes to every node once.

  `branchesBelow` lists the branches under a branch, in the order of the walk and with the
  identifiers they are issued with.  A walk shows exactly these to the visitor, one after the other,
  until the visitor stops (`walkWithin_eq`, `Document.InShape.walkFromRoot_eq`).  Two things have to
  be seen for that.  The reads by handle find the nodes of the tree that the slots hold.  And the
  tracker never refuses a branch: the keys under one parent differ (`seen_beside_new`), and what is
  issued below a part has later parents (`ParentsWithin`), so it does not count for the parts beside
  it.

  Arrays and objects are treated alike: `children` are the nodes under a node with their keys, and
  what holds of the branches below a node is proved along the parts (`branchesBelow_induction`).
  The branches of a document lead to the nodes below its root, each by its path
  (`InShape.leads_of_mem_shown`, `exists_mem_shown`).
-/

namespace Expansion

/-- The branch of a part under `key`, as the tracker issues it. -/
def Branch.child (parent : Branch) (id : Nat) (key : Key) (n : Node) : Branch :=
  ⟨id, some parent.id, some key, parent.path ++ [key], parent.text ++ key.text, n.kind, n.id⟩

/-! ## Visits -/

/-- Shows branches to a visitor, one after the other, until it stops. -/
def visits {σ ε : Type} (visit : Visit σ ε) : List Branch → σ → Logged (Except ε σ)
  | [], state => pure (.ok state)
  | branch :: rest, state => do
    match ← visit state branch with
    | .error e => pure (.error e)
    | .ok state => visits visit rest state

/-- What the visitor answers to branches, without what it notes. -/
def visitAll {σ ε : Type} (visit : Visit σ ε) : List Branch → σ → Except ε σ
  | [], state => .ok state
  | branch :: rest, state =>
    match (visit state branch).value with
    | .ok state => visitAll visit rest state
    | .error e => .error e

/-- The answer of the visits is that of the visitor; the notes aside. -/
theorem value_visits {σ ε : Type} (visit : Visit σ ε) (branches : List Branch) (state : σ) :
    (visits visit branches state).value = visitAll visit branches state := by
  induction branches generalizing state with
  | nil => rfl
  | cons branch rest ih =>
    simp only [visits, visitAll, Logged.value_bind]
    cases (visit state branch).value with
    | ok state => exact ih state
    | error e => rfl

/-- Visits to branches in two rows. -/
theorem visits_append {σ ε : Type} (visit : Visit σ ε) (before after : List Branch) (state : σ) :
    visits visit (before ++ after) state = (do
      match ← visits visit before state with
      | .error e => pure (.error e)
      | .ok state => visits visit after state) := by
  induction before generalizing state with
  | nil => simp only [List.nil_append, visits, pure_bind]
  | cons branch rest ih =>
    simp only [List.cons_append, visits, bind_assoc]
    refine congrArg _ (funext fun answer => ?_)
    cases answer with
    | error e => simp only [pure_bind]
    | ok state => exact ih state

/-- Answers to branches in two rows. -/
theorem visitAll_append {σ ε : Type} (visit : Visit σ ε) (before after : List Branch) (state : σ) :
    visitAll visit (before ++ after) state
      = (visitAll visit before state).bind (visitAll visit after) := by
  induction before generalizing state with
  | nil => rfl
  | cons branch rest ih =>
    simp only [List.cons_append, visitAll]
    cases (visit state branch).value with
    | ok state => exact ih state
    | error e => rfl

/-- Visits stop with the error of the first branch that reports one.  Those before it were answered,
and those after it are not shown. -/
theorem visitAll_eq_error_iff {σ ε : Type} {visit : Visit σ ε} {branches : List Branch} {state : σ}
    {e : ε} :
    visitAll visit branches state = .error e ↔
      ∃ before branch after s, branches = before ++ branch :: after ∧
        visitAll visit before state = .ok s ∧ (visit s branch).value = .error e := by
  constructor
  · intro h
    induction branches generalizing state with
    | nil => cases h
    | cons branch rest ih =>
      rw [visitAll] at h
      cases hv : (visit state branch).value with
      | error e' =>
        rw [hv] at h
        obtain rfl := Except.error.inj h
        exact ⟨[], branch, rest, state, rfl, rfl, hv⟩
      | ok next =>
        rw [hv] at h
        obtain ⟨before, b, after, s, rfl, hbefore, he⟩ := ih h
        refine ⟨branch :: before, b, after, s, rfl, ?_, he⟩
        rw [visitAll, hv]
        exact hbefore
  · rintro ⟨before, branch, after, s, rfl, hbefore, he⟩
    rw [visitAll_append, hbefore]
    show visitAll visit (branch :: after) s = _
    rw [visitAll, he]

namespace Node

mutual

/-- The branches below a branch, whose node is given; the first is issued as `next`. -/
def branchesBelow (parent : Branch) (next : Nat) : Node → List Branch
  | scalar _ _ => []
  | array _ items => branchesItems parent next 0 items
  | object _ fields => branchesFields parent next fields

/-- The branches of elements and below, counted from `i`. -/
def branchesItems (parent : Branch) (next i : Nat) : List Node → List Branch
  | [] => []
  | n :: rest =>
    let branch := parent.child next (.index i) n
    let inner := branchesBelow branch (next + 1) n
    branch :: (inner ++ branchesItems parent (next + 1 + inner.length) (i + 1) rest)

/-- The branches of fields and below. -/
def branchesFields (parent : Branch) (next : Nat) : List (String × Node) → List Branch
  | [] => []
  | (name, n) :: rest =>
    let branch := parent.child next (.field name) n
    let inner := branchesBelow branch (next + 1) n
    branch :: (inner ++ branchesFields parent (next + 1 + inner.length) rest)

end

/-! ## Parts -/

/-- The nodes under a node in order, each under its key. -/
def children : Node → List (Key × Node)
  | scalar _ _ => []
  | array _ items => items.zipIdx.map fun (c, i) => (.index i, c)
  | object _ fields => fields.map fun (name, c) => (.field name, c)

/-- Without their keys, the children are the nodes under the node. -/
theorem map_snd_children (n : Node) : n.children.map (·.2) = n.kids := by
  cases n with
  | scalar id s => rfl
  | array id items => simp [children, kids, Function.comp_def]
  | object id fields => simp [children, kids, Function.comp_def]

/-- A child is one of the nodes under the node. -/
theorem mem_kids_of_mem_children {n : Node} {p : Key × Node} (h : p ∈ n.children) : p.2 ∈ n.kids :=
  map_snd_children n ▸ List.mem_map_of_mem h

/-- The slot of a node names its children, key by key. -/
theorem children_content (n : Node) :
    n.content.children = n.children.map fun p => (p.1, p.2.id) := by
  cases n with
  | scalar id s => rfl
  | array id items =>
    simp [content, Content.children, children, List.zipIdx_map, Function.comp_def]
  | object id fields => simp [content, Content.children, children, Function.comp_def]

/-- What a key leads to is a child under that key. -/
theorem mem_children_of_part? {n c : Node} {key : Key} (h : n.part? key = some c) :
    (key, c) ∈ n.children := by
  cases n with
  | scalar id s => cases h
  | array id items =>
    cases key with
    | field name => cases h
    | index i => exact List.mem_map.mpr ⟨(c, i), List.mk_mem_zipIdx_iff_getElem?.mpr h, rfl⟩
  | object id fields =>
    cases key with
    | index i => cases h
    | field name => exact List.mem_map.mpr ⟨(name, c), Fields.mem_of_find? h, rfl⟩

/-- A child is what its key leads to; in an object this needs that no name comes twice. -/
theorem part?_of_mem_children {n : Node} (ho : n.value.Ordered) {p : Key × Node}
    (h : p ∈ n.children) :
    n.part? p.1 = some p.2 := by
  cases n with
  | scalar id s => cases h
  | array id items =>
    obtain ⟨⟨c, i⟩, hm, rfl⟩ := List.mem_map.mp h
    exact List.mk_mem_zipIdx_iff_getElem?.mp hm
  | object id fields =>
    obtain ⟨⟨name, c⟩, hm, rfl⟩ := List.mem_map.mp h
    have hf : Fields.Ordered fields :=
      Fields.Ordered.of_names_eq ho.1 (by rw [valueFields_eq_map, List.map_map]; rfl)
    exact hf.find?_of_mem hm

/-- The values of the children are in order. -/
theorem ordered_of_mem_children {n : Node} (ho : n.value.Ordered) {p : Key × Node}
    (h : p ∈ n.children) : p.2.value.Ordered := by
  have hpart : n.value.part? p.1 = some p.2.value := by
    rw [← value_part?, part?_of_mem_children ho h]
    rfl
  exact ho.part? hpart

/-- Fields come by ascending name, elements by ascending index.  So the walk comes to the parts in
the order of their keys. -/
theorem pairwise_children {n : Node} (ho : n.value.Ordered) :
    n.children.Pairwise fun p q => p.1.cmp q.1 = .lt := by
  cases n with
  | scalar id s => exact .nil
  | array id items =>
    have hindices : (items.zipIdx.map Prod.snd).Pairwise (· < ·) := by
      rw [List.zipIdx_map_snd]
      exact List.pairwise_lt_range'
    exact List.pairwise_map.mpr ((List.pairwise_map.mp hindices).imp Nat.compare_eq_lt.mpr)
  | object id fields =>
    have hf : Fields.Ordered fields :=
      Fields.Ordered.of_names_eq ho.1 (by rw [valueFields_eq_map, List.map_map]; rfl)
    refine List.pairwise_map.mpr (hf.imp fun {entry other} hlt => ?_)
    show compareOfLessAndEq entry.1 other.1 = .lt
    rw [compareOfLessAndEq, if_pos hlt]

/-- The branches of parts and below. -/
def branchesParts (parent : Branch) (next : Nat) : List (Key × Node) → List Branch
  | [] => []
  | (key, n) :: rest =>
    let branch := parent.child next key n
    let inner := branchesBelow branch (next + 1) n
    branch :: (inner ++ branchesParts parent (next + 1 + inner.length) rest)

/-- The branches of elements are those of parts under their indices. -/
theorem branchesItems_eq (parent : Branch) (next i : Nat) (items : List Node) :
    branchesItems parent next i items
      = branchesParts parent next ((items.zipIdx i).map fun (c, j) => (.index j, c)) := by
  induction items generalizing next i with
  | nil => rfl
  | cons n rest ih =>
    simp only [branchesItems, List.zipIdx_cons, List.map_cons, branchesParts]
    rw [ih]

/-- The branches of fields are those of parts under their names. -/
theorem branchesFields_eq (parent : Branch) (next : Nat) (fields : List (String × Node)) :
    branchesFields parent next fields
      = branchesParts parent next (fields.map fun (name, c) => (.field name, c)) := by
  induction fields generalizing next with
  | nil => rfl
  | cons entry rest ih =>
    simp only [branchesFields, List.map_cons, branchesParts]
    rw [ih]

/-- The branches below a branch are those of the parts of its node, whatever the kind. -/
theorem branchesBelow_eq (parent : Branch) (next : Nat) (n : Node) :
    branchesBelow parent next n = branchesParts parent next n.children := by
  cases n with
  | scalar id s => rfl
  | array id items => exact branchesItems_eq parent next 0 items
  | object id fields => exact branchesFields_eq parent next fields

/-- What holds of no branches, and of a branch with those below it and those beside it when it holds
of both, holds of the branches below a branch.  The identifiers go on through the recursion: what is
beside a part is numbered after all that is below it. -/
theorem branchesBelow_induction {P : Branch → Nat → List (Key × Node) → List Branch → Prop}
    (nil : ∀ parent next, P parent next [] [])
    (cons : ∀ parent next key n rest inner others,
      P (parent.child next key n) (next + 1) n.children inner →
      P parent (next + 1 + inner.length) rest others →
      P parent next ((key, n) :: rest) (parent.child next key n :: (inner ++ others)))
    (parent : Branch) (next : Nat) (n : Node) :
    P parent next n.children (branchesBelow parent next n) := by
  induction n using kids_induction generalizing parent next with
  | h n ih =>
    -- Along the parts of one node, with what is below each of them taken from the outer induction.
    have hparts : ∀ parts next, (∀ p ∈ parts, p.2 ∈ n.kids) →
        P parent next parts (branchesParts parent next parts) := by
      intro parts
      induction parts with
      | nil => exact fun next _ => nil parent next
      | cons p rest ihrest =>
        obtain ⟨key, c⟩ := p
        intro next hmem
        exact cons parent next key c rest _ _ (ih c (hmem _ List.mem_cons_self) _ _)
          (ihrest _ fun p hp => hmem p (List.mem_cons_of_mem _ hp))
    rw [branchesBelow_eq]
    exact hparts n.children next fun p hp => mem_kids_of_mem_children hp

end Node

/-! ## The tracker -/

/-- The parents of branches have identifiers from `lo` up to, but not including, `hi`. -/
def ParentsWithin (lo hi : Nat) (branches : List Branch) : Prop :=
  ∀ branch ∈ branches, ∀ p, branch.parent = some p → lo ≤ p ∧ p < hi

/-- Wider bounds hold too. -/
theorem ParentsWithin.mono {lo lo' hi hi' : Nat} {branches : List Branch}
    (h : ParentsWithin lo hi branches) (hlo : lo' ≤ lo) (hhi : hi ≤ hi') :
    ParentsWithin lo' hi' branches := by
  intro branch hm p hp
  have := h branch hm p hp
  omega

namespace Tracker

/-- Every branch was issued after its parent. -/
def Bounded (tracker : Tracker) : Prop := ParentsWithin 0 tracker.len tracker.branches

/-- The tracker with more branches. -/
def extend (tracker : Tracker) (branches : List Branch) : Tracker := ⟨tracker.branches ++ branches⟩

variable {tracker : Tracker} {parent : Branch} {key : Key} {n : Node}

/-- Every branch counts. -/
@[simp] theorem len_extend (tracker : Tracker) (branches : List Branch) :
    (tracker.extend branches).len = tracker.len + branches.length := by
  simp [len, extend]

/-- Branches that come in two rows. -/
theorem extend_extend (tracker : Tracker) (a b : List Branch) :
    (tracker.extend a).extend b = tracker.extend (a ++ b) := by
  simp [extend]

/-- No branches change nothing. -/
@[simp] theorem extend_nil (tracker : Tracker) : tracker.extend [] = tracker := by
  simp [extend]

/-- A key is not seen under a parent when no branch of that parent has it. -/
theorem seen_eq_false_iff :
    tracker.seen parent key = false ↔
      ∀ branch ∈ tracker.branches, branch.parent = some parent.id → branch.key ≠ some key := by
  simp [seen]

/-- A key that was not seen is issued. -/
theorem child_of_not_seen (hs : tracker.seen parent key = false) (n : Node) :
    tracker.child parent key n.id n.kind
      = .ok (parent.child tracker.len key n, tracker.extend [parent.child tracker.len key n]) := by
  simp [child, hs, Branch.child, extend]

/-- Branches that were issued after their parents may be added. -/
theorem Bounded.extend {branches : List Branch} {lo : Nat} (h : tracker.Bounded)
    (hb : ParentsWithin lo (tracker.len + branches.length) branches) :
    (tracker.extend branches).Bounded := by
  intro branch hm p hp
  rw [len_extend]
  rcases List.mem_append.mp hm with hm | hm
  · have := h branch hm p hp
    omega
  · have := hb branch hm p hp
    omega

/-- Branches issued under later parents do not count as seen under an earlier one.  The tracker
looks for a branch with the same parent and the same key. -/
theorem seen_extend_eq_false {branches : List Branch} {hi : Nat}
    (hs : tracker.seen parent key = false) (hb : ParentsWithin (parent.id + 1) hi branches) :
    (tracker.extend branches).seen parent key = false := by
  rw [seen_eq_false_iff] at hs ⊢
  intro branch hm hp
  rcases List.mem_append.mp hm with hm | hm
  · exact hs branch hm hp
  · have := hb branch hm _ hp
    omega

/-- Nothing was seen under a branch that is just issued. -/
theorem seen_under_new (h : tracker.Bounded) {other : Branch} (hid : other.id = tracker.len)
    (hp : parent.id < tracker.len) (k : Key) :
    (tracker.extend [parent.child tracker.len key n]).seen other k = false := by
  rw [seen_eq_false_iff]
  intro branch hm he
  rcases List.mem_append.mp hm with hm | hm
  · have := h branch hm _ he
    omega
  · obtain rfl := List.mem_singleton.mp hm
    have : parent.id = other.id := Option.some.inj he
    omega

/-- Another key is seen no more often for a branch that is just issued. -/
theorem seen_beside_new {other : Key} (hs : tracker.seen parent other = false) (hk : other ≠ key) :
    (tracker.extend [parent.child tracker.len key n]).seen parent other = false := by
  rw [seen_eq_false_iff] at hs ⊢
  intro branch hm hp
  rcases List.mem_append.mp hm with hm | hm
  · exact hs branch hm hp
  · obtain rfl := List.mem_singleton.mp hm
    intro he
    exact hk (Option.some.inj he).symm

end Tracker

namespace Node

/-- The branches of a part, and those below it, have parents from the parent on.  What is below the
part was issued under the part or later branches, what is beside it under the parent again. -/
theorem parentsWithin_part {parent : Branch} {next : Nat} {key : Key} {n : Node}
    {inner others : List Branch} (hp : parent.id < next)
    (hi : ParentsWithin next (next + 1 + inner.length) inner)
    (ho : ParentsWithin parent.id (next + 1 + inner.length + others.length) others) :
    ParentsWithin parent.id (next + (parent.child next key n :: (inner ++ others)).length)
      (parent.child next key n :: (inner ++ others)) := by
  intro branch hm p he
  simp only [List.length_cons, List.length_append]
  rcases List.mem_cons.mp hm with rfl | hm
  · obtain rfl : parent.id = p := Option.some.inj he
    omega
  · rcases List.mem_append.mp hm with hm | hm
    · have := hi branch hm p he
      omega
    · have := ho branch hm p he
      omega

/-- All branches below a branch have that one or later ones as parents. -/
theorem parentsWithin_branchesBelow (parent : Branch) (next : Nat) (hp : parent.id < next)
    (n : Node) : ParentsWithin parent.id (next + (branchesBelow parent next n).length)
      (branchesBelow parent next n) := by
  revert hp
  refine branchesBelow_induction (P := fun parent next _ row =>
    parent.id < next → ParentsWithin parent.id (next + row.length) row)
    (fun parent next _ => by simp [ParentsWithin]) ?_ parent next n
  intro parent next key n rest inner others hinner hothers hp
  exact parentsWithin_part hp (hinner (Nat.lt_succ_self next)) (hothers (by omega))

end Node

/-! ## The walk -/

namespace Document

section

variable {doc : Document} {σ ε : Type} {ofDocument : DocumentError → ε} {visit : Visit σ ε}
  {descend : Descent σ ε} {parent : Branch} {tracker : Tracker} {key : Key} {n : Node}

/-- What a walk over `branches` answers. -/
def walked (visit : Visit σ ε) (branches : List Branch) (state : σ) (tracker : Tracker) :
    Logged (Except ε (σ × Tracker)) := do
  return (← visits visit branches state).map fun state => (state, tracker.extend branches)

/-- A walk over nothing answers what it has. -/
theorem walked_nil (state : σ) (tracker : Tracker) :
    walked visit [] state tracker = pure (.ok (state, tracker)) := by
  simp [walked, visits, Except.map]

/-- What comes after a walk over branches starts where the walk ends. -/
theorem walked_bind {β : Type} (visit : Visit σ ε) (branches : List Branch) (state : σ)
    (tracker : Tracker) (next : Except ε (σ × Tracker) → Logged β) :
    walked visit branches state tracker >>= next = visits visit branches state >>= fun answer =>
      next (answer.map fun state => (state, tracker.extend branches)) := by
  simp only [walked, bind_assoc, pure_bind]

/-- A walk over some branches and then over others is a walk over all of them. -/
theorem walked_append (before after : List Branch) (state : σ) (tracker : Tracker) :
    walked visit (before ++ after) state tracker = (do
      match ← walked visit before state tracker with
      | .error e => pure (.error e)
      | .ok (state, tracker) => walked visit after state tracker) := by
  rw [walked_bind, walked, visits_append, bind_assoc]
  refine congrArg _ (funext fun answer => ?_)
  cases answer with
  | error e => rfl
  | ok state =>
    simp only [Except.map, walked, Tracker.extend_extend]

/-- A walk starts with its first branch, and goes on if the visitor does. -/
theorem walked_cons (branch : Branch) (rest : List Branch) (state : σ) (tracker : Tracker) :
    walked visit (branch :: rest) state tracker = (do
      match ← visit state branch with
      | .error e => pure (.error e)
      | .ok state => walked visit rest state (tracker.extend [branch])) := by
  rw [← List.singleton_append, walked_append, walked_bind]
  simp only [visits, bind_assoc]
  refine congrArg _ (funext fun answer => ?_)
  cases answer with
  | error e => rfl
  | ok state => simp only [pure_bind, Except.map]

/-- Descending below a node shows the branches below it. -/
def Descends (descend : Descent σ ε) (visit : Visit σ ε) (n : Node) : Prop :=
  ∀ branch state tracker, branch.node = n.id → tracker.Bounded → branch.id < tracker.len →
    (∀ key, tracker.seen branch key = false) →
    descend branch state tracker = walked visit (n.branchesBelow branch tracker.len) state tracker

/-- With one part issued the tracker still fits. -/
theorem bounded_extend_child (hb : tracker.Bounded) (hid : parent.id < tracker.len) (key : Key)
    (n : Node) : (tracker.extend [parent.child tracker.len key n]).Bounded := by
  refine hb.extend (show ParentsWithin 0 _ _ from fun branch hm p hp => ?_)
  obtain rfl := List.mem_singleton.mp hm
  obtain rfl : parent.id = p := Option.some.inj hp
  omega

/-- After a part and what is below it, the tracker fits, and the other keys are not seen.  This is
what lets the walk go on with the parts beside it. -/
theorem after_part (key : Key) (n : Node) (hb : tracker.Bounded) (hid : parent.id < tracker.len) :
    let branch := parent.child tracker.len key n
    let tracker' := tracker.extend (branch :: n.branchesBelow branch (tracker.len + 1))
    tracker'.Bounded ∧ parent.id < tracker'.len ∧
      ∀ other, other ≠ key → tracker.seen parent other = false →
        tracker'.seen parent other = false := by
  intro branch tracker'
  have hi : ParentsWithin tracker.len _ _ :=
    Node.parentsWithin_branchesBelow branch (tracker.len + 1) (Nat.lt_succ_self _) n
  -- What is below the part has the part or later branches as parents, never the parent itself.
  have hsplit : tracker' = (tracker.extend [branch]).extend
      (n.branchesBelow branch (tracker.len + 1)) := by
    rw [Tracker.extend_extend]
    rfl
  refine ⟨?_, ?_, fun other ho hs => ?_⟩
  · rw [hsplit]
    exact (bounded_extend_child hb hid key n).extend (by simpa using hi)
  · rw [Tracker.len_extend]
    omega
  · rw [hsplit]
    refine Tracker.seen_extend_eq_false (Tracker.seen_beside_new hs ho) (hi.mono ?_ (Nat.le_refl _))
    exact hid

/-- A part that is entered is shown, then what is below it.  The tracker issues its branch, since
the key was not seen, and has nothing under that branch yet. -/
theorem enter_eq (hk : doc.kind n.id = .ok n.kind) (hd : Descends descend visit n)
    (hs : tracker.seen parent key = false) (hb : tracker.Bounded) (hid : parent.id < tracker.len)
    (state : σ) :
    let branch := parent.child tracker.len key n
    doc.enter ofDocument visit descend parent key n.id state tracker
      = walked visit (branch :: n.branchesBelow branch (tracker.len + 1)) state tracker := by
  intro branch
  simp only [enter, hk, Tracker.child_of_not_seen hs, walked_cons]
  refine congrArg _ (funext fun answer => ?_)
  cases answer with
  | error e => rfl
  | ok state =>
    simp only
    split
    · rw [hd _ state _ rfl (bounded_extend_child hb hid key n) (by simp [Branch.child])
        (Tracker.seen_under_new hb rfl hid), Tracker.len_extend]
      rfl
    · rename_i hleaf
      -- A node that is no container has nothing below it.
      cases n with
      | scalar id s => exact (walked_nil state _).symm
      | array id items => exact absurd rfl hleaf
      | object id fields => exact absurd rfl hleaf

/-- The parts of a container are shown in order, each with what is below it.  By induction on the
parts, which are under different keys since the keys ascend. -/
theorem walkParts_eq (parts : List (Key × Node))
    (hk : ∀ p ∈ parts, doc.kind p.2.id = .ok p.2.kind)
    (hd : ∀ p ∈ parts, Descends descend visit p.2)
    (hkeys : parts.Pairwise fun p q => p.1.cmp q.1 = .lt)
    (hs : ∀ p ∈ parts, tracker.seen parent p.1 = false) (hb : tracker.Bounded)
    (hid : parent.id < tracker.len) (state : σ) :
    doc.walkParts ofDocument visit descend parent (parts.map fun p => (p.1, p.2.id)) state tracker
      = walked visit (Node.branchesParts parent tracker.len parts) state tracker := by
  induction parts generalizing state tracker with
  | nil => exact (walked_nil state tracker).symm
  | cons p rest ih =>
    obtain ⟨key, c⟩ := p
    obtain ⟨hlt, hkeys⟩ := List.pairwise_cons.mp hkeys
    obtain ⟨hb', hid', hs'⟩ := after_part key c hb hid
    rw [List.map_cons, walkParts, enter_eq (hk _ List.mem_cons_self) (hd _ List.mem_cons_self)
      (hs _ List.mem_cons_self) hb hid, Node.branchesParts, ← List.cons_append, walked_append,
      walked_bind, walked_bind]
    refine congrArg _ (funext fun answer => ?_)
    cases answer with
    | error e => rfl
    | ok state =>
      -- The keys that follow are later ones, so they are still unseen.
      have hunseen : ∀ q ∈ rest, q.1 ≠ key := by
        rintro q hq rfl
        have hself : q.1.cmp q.1 = .eq := Std.ReflCmp.compare_self
        have hbefore := hlt q hq
        rw [hself] at hbefore
        cases hbefore
      have hrest := ih (fun q hq => hk q (List.mem_cons_of_mem _ hq))
        (fun q hq => hd q (List.mem_cons_of_mem _ hq)) hkeys
        (fun q hq => hs' q.1 (hunseen q hq) (hs q (List.mem_cons_of_mem _ hq))) hb' hid' state
      rw [Tracker.len_extend, List.length_cons, ← Nat.add_assoc, Nat.add_right_comm _ _ 1] at hrest
      exact hrest

/-- The kind of a node that is held is read from its slot. -/
theorem kind_of_holds {p : Option Nat} (h : Holds doc p n) : doc.kind n.id = .ok n.kind := by
  rw [Document.kind, slot_of_holds h]
  cases n <;> rfl

/-- A walk below a branch shows the branches below it, if it may go down as many levels as there are
slots from the node on.  Every part has a greater handle than its container, so one level less is
enough for it. -/
theorem walkWithin_eq {levels : Nat} {p : Option Nat} (h : Holds doc p n)
    (hl : doc.slots.size ≤ levels + n.id) (ho : n.value.Ordered) :
    Descends (doc.walkWithin ofDocument visit levels) visit n := by
  induction levels generalizing p n with
  | zero =>
    have hlt := lt_size_of_slot? h.slot
    omega
  | succ levels ih =>
    intro branch state tracker hnode hb hid hs
    have hchildren : doc.children branch.node = .ok (n.children.map fun p => (p.1, p.2.id)) := by
      rw [hnode, children, slot_of_holds h, Except.map, Node.children_content]
    rw [Node.branchesBelow_eq]
    simp only [walkWithin, hchildren]
    refine walkParts_eq n.children (fun q hq => ?_) (fun q hq => ?_) (Node.pairwise_children ho)
      (fun q _ => hs q.1) hb hid state
    · exact kind_of_holds (h.kids q.2 (Node.mem_kids_of_mem_children hq))
    · have hkid := Node.mem_kids_of_mem_children hq
      have hlt := h.lt_of_mem_kids hkid
      exact ih (h.kids q.2 hkid) (by omega) (Node.ordered_of_mem_children ho hq)

end

end Document

/-! ## The branches of a document -/

/-- The branch knows the way to a node below the root. -/
structure Branch.LeadsTo (branch : Branch) (root : Node) (before : Path) (key : Key) (n : Node) :
    Prop where
  path : branch.path = before ++ [key]
  key : branch.key = some key
  text : branch.text = branch.path.text
  kind : branch.kind = n.kind
  node : branch.node = n.id
  at? : root.at? branch.path = some n

/-- The branch leads to some node below the root. -/
def Branch.Leads (branch : Branch) (root : Node) : Prop :=
  ∃ before key n, branch.LeadsTo root before key n

namespace Node

variable {root : Node}

/-- The branch of a part leads to that part. -/
theorem leadsTo_child {parent : Branch} (ht : parent.text = parent.path.text) (next : Nat)
    {key : Key} {n : Node} (hn : root.at? (parent.path ++ [key]) = some n) :
    (parent.child next key n).LeadsTo root parent.path key n :=
  ⟨rfl, rfl, by simp [Branch.child, ht, Path.text_concat], rfl, rfl, hn⟩

/-- A child is found one key further. -/
theorem at?_concat_of_mem_children {path : Path} {n : Node} {p : Key × Node}
    (hn : root.at? path = some n) (ho : n.value.Ordered) (hp : p ∈ n.children) :
    root.at? (path ++ [p.1]) = some p.2 :=
  (Shape.at?_concat hn p.1).trans (part?_of_mem_children ho hp)

/-- The branches below a branch that leads to a node lead to the nodes below.  What the branch of a
part knows is put together from its parent and its key, and so on downwards. -/
theorem leads_branchesBelow (parent : Branch) (next : Nat) (ht : parent.text = parent.path.text)
    (n : Node) (ho : n.value.Ordered) (hn : root.at? parent.path = some n) :
    ∀ branch ∈ branchesBelow parent next n, branch.Leads root := by
  refine branchesBelow_induction (P := fun parent _ parts row => parent.text = parent.path.text →
    (∀ p ∈ parts, p.2.value.Ordered ∧ root.at? (parent.path ++ [p.1]) = some p.2) →
    ∀ branch ∈ row, branch.Leads root) ?nil ?cons parent next n ht
    fun p hp => ⟨ordered_of_mem_children ho hp, at?_concat_of_mem_children hn ho hp⟩
  case nil => exact fun parent next _ _ branch hm => by cases hm
  case cons =>
    intro parent next key c rest inner others hinner hothers ht hparts branch hm
    obtain ⟨hc, hat⟩ := hparts (key, c) List.mem_cons_self
    have hchild := leadsTo_child ht next hat
    rcases List.mem_cons.mp hm with rfl | hm
    · exact ⟨_, _, _, hchild⟩
    rcases List.mem_append.mp hm with hm | hm
    · exact hinner hchild.text (fun p hp =>
        ⟨ordered_of_mem_children hc hp, at?_concat_of_mem_children hchild.at? hc hp⟩) branch hm
    · exact hothers ht (fun p hp => hparts p (List.mem_cons_of_mem _ hp)) branch hm

/-- Every path that resolves below a node has its branch.  The path goes on from the part under its
first key, and the branches below that part are among those below the node. -/
theorem reaches_branchesBelow (parent : Branch) (next : Nat) {path : Path} {c : Node} (n : Node)
    (hp : path ≠ []) (hc : n.at? path = some c) :
    ∃ branch ∈ branchesBelow parent next n, branch.path = parent.path ++ path := by
  have hreach := branchesBelow_induction (P := fun parent _ parts row => ∀ p ∈ parts, ∀ rest c,
    p.2.at? rest = some c → ∃ branch ∈ row, branch.path = parent.path ++ p.1 :: rest)
    ?nil ?cons parent next n
  case nil => exact fun parent next p hp => by cases hp
  case cons =>
    intro parent next key n others inner beside hinner hbeside p hp rest c hc
    -- The path goes into the part, or into one of those beside it.
    rcases List.mem_cons.mp hp with rfl | hp
    · cases rest with
      | nil => exact ⟨_, List.mem_cons_self, rfl⟩
      | cons k rest =>
        obtain ⟨d, hd, hc⟩ := Option.bind_eq_some_iff.mp hc
        obtain ⟨branch, hm, hpath⟩ := hinner (k, d) (mem_children_of_part? hd) rest c hc
        refine ⟨branch, List.mem_cons_of_mem _ (List.mem_append_left _ hm), ?_⟩
        rw [hpath, Branch.child, List.append_assoc]
        rfl
    · obtain ⟨branch, hm, hpath⟩ := hbeside p hp rest c hc
      exact ⟨branch, List.mem_cons_of_mem _ (List.mem_append_right _ hm), hpath⟩
  cases path with
  | nil => exact absurd rfl hp
  | cons key rest =>
    obtain ⟨d, hd, hc⟩ := Option.bind_eq_some_iff.mp hc
    exact hreach (key, d) (mem_children_of_part? hd) rest c hc

end Node

namespace Document

variable {doc : Document} {σ ε : Type}

/-- The branches that a walk over a document shows, in order. -/
def shown (doc : Document) : List Branch :=
  doc.root.branchesBelow (.root doc.root.id doc.root.kind) 1

/-- A walk over a document shows its root, then its branches, and issues these after the root.  The
tracker starts with the root alone, so nothing was seen under it. -/
theorem InShape.walkFromRoot_eq (h : doc.InShape) (ofDocument : DocumentError → ε)
    (visitRoot visit : Visit σ ε) (state : σ) :
    let root := Branch.root doc.root.id doc.root.kind
    doc.walkFromRoot ofDocument visitRoot visit state = (do
      match ← visitRoot state root with
      | .error e => pure (.error e)
      | .ok state =>
        return (← visits visit doc.shown state).map fun state => (state, ⟨root :: doc.shown⟩)) := by
  obtain ⟨n, hn⟩ := h
  have hb : (Tracker.start n.id n.kind).Bounded := by
    intro branch hm p hp
    obtain rfl := List.mem_singleton.mp hm
    cases hp
  -- Nothing has been issued but the root, which has no key.
  have hunseen : ∀ key, (Tracker.start n.id n.kind).seen (.root n.id n.kind) key = false := by
    intro key
    rw [Tracker.seen_eq_false_iff]
    intro branch hm hp
    obtain rfl := List.mem_singleton.mp hm
    cases hp
  have hkind := kind_of_holds hn.holds
  simp only [walkFromRoot, shown, hn.root_eq, ← hn.top, hkind]
  refine congrArg _ (funext fun answer => ?_)
  cases answer with
  | error e => rfl
  | ok state =>
    exact walkWithin_eq hn.holds (Nat.le_add_right _ _) hn.ordered _ state _ rfl hb Nat.one_pos
      hunseen

/-- A walk over a document shows its branches to the visitor, and issues them after the root. -/
theorem InShape.walk_eq (h : doc.InShape) (ofDocument : DocumentError → ε) (visit : Visit σ ε)
    (state : σ) :
    doc.walk ofDocument visit state = (do
      return (← visits visit doc.shown state).map fun state =>
        (state, ⟨.root doc.root.id doc.root.kind :: doc.shown⟩)) := by
  rw [walk, h.walkFromRoot_eq]
  simp only [pure_bind]

/-- What a walk answers, without the notes. -/
theorem InShape.value_walk (h : doc.InShape) (ofDocument : DocumentError → ε) (visit : Visit σ ε)
    (state : σ) :
    (doc.walk ofDocument visit state).value
      = (visitAll visit doc.shown state).map fun state =>
          (state, ⟨.root doc.root.id doc.root.kind :: doc.shown⟩) := by
  rw [h.walk_eq, ← value_visits]
  rfl

/-- Each branch shown leads to a node below the root. -/
theorem InShape.leads_of_mem_shown (h : doc.InShape) :
    ∀ branch ∈ doc.shown, branch.Leads doc.root := by
  obtain ⟨n, hn⟩ := h
  rw [shown, hn.root_eq]
  exact Node.leads_branchesBelow _ 1 rfl n hn.ordered rfl

/-- Every path below the root that resolves is shown. -/
theorem exists_mem_shown {path : Path} {c : Node} (hp : path ≠ [])
    (hc : doc.root.at? path = some c) : ∃ branch ∈ doc.shown, branch.path = path :=
  Node.reaches_branchesBelow (.root doc.root.id doc.root.kind) 1 doc.root hp hc

/-- The marked fields of a document are shown, and nothing else is shown as a marked field. -/
theorem InShape.occurs_iff (h : doc.InShape) {marked : String → Prop} {path : Path} :
    doc.toValue.Occurs marked path ↔
      ∃ branch ∈ doc.shown, branch.path = path ∧
        ∃ name, branch.fieldName? = some name ∧ marked name := by
  constructor
  · rintro ⟨before, name, rfl, hname, hs⟩
    rw [toValue, ← Node.value_at?, Option.isSome_map] at hs
    obtain ⟨c, hc⟩ := Option.isSome_iff_exists.mp hs
    obtain ⟨branch, hm, hp⟩ := exists_mem_shown (by simp) hc
    -- The branch of the path has the last key of the path.
    obtain ⟨before', key, n, hl⟩ := h.leads_of_mem_shown branch hm
    obtain ⟨-, hkey⟩ := List.append_inj' (hl.path.symm.trans hp) rfl
    refine ⟨branch, hm, hp, name, ?_, hname⟩
    rw [Branch.fieldName?, hl.key, (List.cons.inj hkey).1]
    rfl
  · rintro ⟨branch, hm, rfl, name, hname, hmarked⟩
    obtain ⟨before, key, n, hl⟩ := h.leads_of_mem_shown branch hm
    rw [Branch.fieldName?, hl.key] at hname
    cases key with
    | index i => cases hname
    | field other =>
      obtain rfl : other = name := Option.some.inj hname
      refine ⟨before, other, hl.path, hmarked, ?_⟩
      rw [toValue, ← Node.value_at?, hl.at?]
      rfl

end Document

end Expansion
