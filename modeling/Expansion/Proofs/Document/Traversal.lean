import Expansion.Proofs.Document.Above
import Expansion.Proofs.Document.Walk

/-!
  The branches of a walk are the nodes of the document.

  A walk shows the branches below the root in pre-order (`Document.shown`).  Here they are matched
  with the nodes: their handles are the handles of the tree, each once; their identifiers count
  them; the branch that a branch was issued under is that of the container; and their paths ascend,
  a path before its continuations, fields by name and elements by index.  `Document.Itinerary`
  gathers what is true of the root's branch and those shown.

  All facts about the branches below a node are proved along its parts, by
  `Node.branchesBelow_induction`.
-/

namespace Expansion

/-! ## Visitors that stop, and visitors that do not -/

section

variable {σ ε : Type} {visit : Visit σ ε} {before after : List Branch} {branch : Branch}
  {state s : σ} {e : ε}

/-- A visitor that fails at a branch has seen those before it, and none after it.  The notes are
those of the branches before it and its own. -/
theorem visits_of_error (hbefore : (visits visit before state).value = .ok s)
    (he : (visit s branch).value = .error e) :
    visits visit (before ++ branch :: after) state
      = ⟨.error e, (visits visit before state).entries ++ (visit s branch).entries⟩ := by
  have hlast : visits visit (branch :: after) s = ⟨.error e, (visit s branch).entries⟩ := by
    rw [visits]
    show Logged.mk _ _ = _
    rw [he]
    exact congrArg _ (List.append_nil _)
  rw [visits_append]
  show Logged.mk _ _ = _
  rw [hbefore]
  simp only [hlast]

/-- A visitor that never fails sees all branches. -/
theorem exists_value_visits {branches : List Branch}
    (h : ∀ s, ∀ branch ∈ branches, ∃ s', (visit s branch).value = .ok s') (state : σ) :
    ∃ s, (visits visit branches state).value = .ok s := by
  induction branches generalizing state with
  | nil => exact ⟨state, rfl⟩
  | cons branch rest ih =>
    obtain ⟨s, hs⟩ := h state branch List.mem_cons_self
    rw [visits, Logged.value_bind, hs]
    exact ih (fun s b hb => h s b (List.mem_cons_of_mem _ hb)) s

end

namespace Node

/-! ## Branches and the tree -/

/-- The branches below a node are those of the nodes below it, in order.  So the walk comes to the
nodes in the order in which their handles are listed, a node before its parts. -/
theorem map_node_branchesBelow (parent : Branch) (next : Nat) (n : Node) :
    n.id :: (branchesBelow parent next n).map Branch.node = n.handles := by
  have hbelow := branchesBelow_induction
    (P := fun _ _ parts row => row.map Branch.node = (parts.map (·.2)).flatMap handles)
    (fun _ _ => rfl) ?cons parent next n
  case cons =>
    intro parent next key c rest inner others hinner hothers
    rw [List.map_cons, List.map_append, hinner, hothers, map_snd_children, List.map_cons,
      List.flatMap_cons, handles_eq]
    rfl
  rw [hbelow, map_snd_children, handles_eq]

/-- The identifiers of the branches below a node are consecutive. -/
theorem map_id_branchesBelow (parent : Branch) (next : Nat) (n : Node) :
    (branchesBelow parent next n).map Branch.id
      = List.range' next (branchesBelow parent next n).length := by
  refine branchesBelow_induction
    (P := fun _ next _ row => row.map Branch.id = List.range' next row.length)
    (fun _ _ => rfl) ?_ parent next n
  intro parent next key c rest inner others hinner hothers
  rw [List.map_cons, List.map_append, hinner, hothers, List.length_cons, List.length_append,
    List.range'_succ, ← List.range'_append_1]
  rfl

/-- Every branch below another was issued under the one whose path its own continues.  That is the
branch at the top, or one of those below it. -/
theorem exists_parent_of_mem_branchesBelow (parent : Branch) (next : Nat) (n : Node) :
    ∀ b ∈ branchesBelow parent next n, ∃ a ∈ parent :: branchesBelow parent next n,
      b.parent = some a.id ∧ ∃ key, b.path = a.path ++ [key] := by
  refine branchesBelow_induction (P := fun parent _ _ row => ∀ b ∈ row, ∃ a ∈ parent :: row,
    b.parent = some a.id ∧ ∃ key, b.path = a.path ++ [key]) (fun _ _ b hb => by cases hb) ?_
    parent next n
  intro parent next key c rest inner others hinner hothers b hb
  -- A branch is that of the part, or below it, or belongs to the parts beside it.
  rcases List.mem_cons.mp hb with rfl | hb
  · exact ⟨parent, List.mem_cons_self, rfl, key, rfl⟩
  rcases List.mem_append.mp hb with hb | hb
  · obtain ⟨a, ha, hab⟩ := hinner b hb
    refine ⟨a, List.mem_cons_of_mem _ ?_, hab⟩
    rw [← List.cons_append]
    exact List.mem_append_left _ ha
  · obtain ⟨a, ha, hab⟩ := hothers b hb
    refine ⟨a, ?_, hab⟩
    rcases List.mem_cons.mp ha with rfl | ha
    · exact List.mem_cons_self
    · exact List.mem_cons_of_mem _ (List.mem_cons_of_mem _ (List.mem_append_right _ ha))

/-! ## The order of the branches -/

/-- The paths continue that of the parent, each by the key of one of the parts. -/
def Continues (parent : Branch) (parts : List (Key × Node)) (row : List Branch) : Prop :=
  ∀ b ∈ row, ∃ p ∈ parts, ∃ rest, b.path = parent.path ++ p.1 :: rest

/-- Below a part the paths continue with its key, beside it with the other keys.  The branch of the
part itself ends with that key. -/
theorem continues_cons {parent : Branch} {next : Nat} {key : Key} {n : Node}
    {parts rest : List (Key × Node)} {inner others : List Branch}
    (hinner : Continues (parent.child next key n) parts inner)
    (hothers : Continues parent rest others) :
    Continues parent ((key, n) :: rest) (parent.child next key n :: (inner ++ others)) := by
  intro b hb
  rcases List.mem_cons.mp hb with rfl | hb
  · exact ⟨_, List.mem_cons_self, [], rfl⟩
  rcases List.mem_append.mp hb with hb | hb
  · obtain ⟨p, -, rest, hpath⟩ := hinner b hb
    refine ⟨_, List.mem_cons_self, p.1 :: rest, ?_⟩
    rw [hpath, Branch.child, List.append_assoc]
    rfl
  · obtain ⟨p, hp, hpath⟩ := hothers b hb
    exact ⟨p, List.mem_cons_of_mem _ hp, hpath⟩

/-- A part and what is below it come before the parts with later keys. -/
theorem cmp_of_continues {parent : Branch} {key : Key} {rest : List (Key × Node)}
    {others : List Branch} (hlt : ∀ p ∈ rest, key.cmp p.1 = .lt)
    (hothers : Continues parent rest others) {q : Path} {b : Branch} (hb : b ∈ others) :
    Path.cmp (parent.path ++ key :: q) b.path = .lt := by
  obtain ⟨p, hp, r, hpath⟩ := hothers b hb
  rw [hpath, Path.cmp_append, Path.cmp, hlt p hp]
  rfl

/-- The paths below a node ascend: a path before its continuations, and the parts by their keys.
Two branches in different parts are told apart at the key of the part, and those in one part by
induction.  That the paths continue by the keys of the parts is proved along with it, since the
comparison needs it. -/
theorem pairwise_branchesBelow (parent : Branch) (next : Nat) {n : Node} (ho : n.value.Ordered) :
    Continues parent n.children (branchesBelow parent next n) ∧
      (branchesBelow parent next n).Pairwise fun a b => a.path.cmp b.path = .lt := by
  suffices h : Continues parent n.children (branchesBelow parent next n) ∧
      (n.children.Pairwise (fun p q => p.1.cmp q.1 = .lt) →
        (∀ p ∈ n.children, p.2.value.Ordered) →
        (branchesBelow parent next n).Pairwise fun a b => a.path.cmp b.path = .lt) from
    h.imp_right fun h => h (pairwise_children ho) fun p hp => ordered_of_mem_children ho hp
  refine branchesBelow_induction (P := fun parent _ parts row => Continues parent parts row ∧
    (parts.Pairwise (fun p q => p.1.cmp q.1 = .lt) → (∀ p ∈ parts, p.2.value.Ordered) →
      row.Pairwise fun a b => a.path.cmp b.path = .lt)) ?nil ?cons parent next n
  case nil => exact fun _ _ => ⟨fun _ hb => (by cases hb), fun _ _ => .nil⟩
  case cons =>
    intro parent next key c rest inner others ⟨hinner, hpinner⟩ ⟨hothers, hpothers⟩
    refine ⟨continues_cons hinner hothers, fun hkeys hordered => ?_⟩
    obtain ⟨hlt, hkeys⟩ := List.pairwise_cons.mp hkeys
    have hc : c.value.Ordered := hordered (key, c) List.mem_cons_self
    refine List.pairwise_cons.mpr ⟨fun b hb => ?_, List.pairwise_append.mpr
      ⟨hpinner (pairwise_children hc) fun p hp => ordered_of_mem_children hc hp,
        hpothers hkeys fun p hp => hordered p (List.mem_cons_of_mem _ hp), fun a ha b hb => ?_⟩⟩
    · rcases List.mem_append.mp hb with hb | hb
      · -- Below the part: its path continues.
        obtain ⟨p, -, r, hpath⟩ := hinner b hb
        have hself := Path.cmp_append (parent.path ++ [key]) [] (p.1 :: r)
        rw [List.append_nil] at hself
        rw [hpath]
        exact hself
      · exact cmp_of_continues hlt hothers hb
    · obtain ⟨p, -, r, hpath⟩ := hinner a ha
      rw [hpath, Branch.child, List.append_assoc]
      exact cmp_of_continues hlt hothers hb

end Node

/-! ## Documents -/

namespace Document

variable {doc : Document}

/-- The branches are those of the nodes in use, each once and in the order of a walk, and a branch
tells the way to its node, its kind, and the branch of its container. -/
structure Itinerary (doc : Document) (branches : List Branch) : Prop where
  order : branches.Pairwise fun a b => a.path.cmp b.path = .lt
  once : (branches.map Branch.node).Nodup
  covers : ∀ k, (∃ b ∈ branches, b.node = k) ↔ (doc.slot? k).isSome
  length : branches.length = doc.len
  id : ∀ b ∈ branches, (Tracker.mk branches).get? b.id = some b
  pathOf : ∀ b ∈ branches, doc.pathOf b.node = .ok b.path
  get : ∀ b ∈ branches, doc.get b.path = .ok b.node
  kind : ∀ b ∈ branches, doc.kind b.node = .ok b.kind
  text : ∀ b ∈ branches, b.text = b.path.text
  parent : ∀ b ∈ branches,
    doc.parent b.node = .ok (((Tracker.mk branches).parentOf? b).map Branch.node)

/-- The branch of the root, as a walk issues it. -/
def rootBranch (doc : Document) : Branch := .root doc.root.id doc.root.kind

/-- The branches that are shown, the root in front, have the handles of the tree. -/
theorem map_node_shown (doc : Document) :
    (doc.rootBranch :: doc.shown).map Branch.node = doc.root.handles :=
  Node.map_node_branchesBelow doc.rootBranch 1 doc.root

/-- Branches are found by their identifiers. -/
theorem get?_id_of_mem_shown (doc : Document) : ∀ b ∈ doc.rootBranch :: doc.shown,
    (Tracker.mk (doc.rootBranch :: doc.shown)).get? b.id = some b := by
  intro b hb
  have hids : (doc.rootBranch :: doc.shown).map Branch.id
      = List.range (doc.rootBranch :: doc.shown).length := by
    have hbelow := Node.map_id_branchesBelow doc.rootBranch 1 doc.root
    rw [List.map_cons, List.length_cons, List.range_eq_range', List.range'_succ]
    exact congrArg _ hbelow
  obtain ⟨i, hi⟩ := List.mem_iff_getElem?.mp hb
  have hid : some b.id = (List.range (doc.rootBranch :: doc.shown).length)[i]? := by
    rw [← hids, List.getElem?_map, hi]
    rfl
  obtain ⟨hlt, -⟩ := List.getElem?_eq_some_iff.mp hi
  rw [List.getElem?_range hlt] at hid
  rw [Tracker.get?, Option.some.inj hid]
  exact hi

/-- The branch leads to a node of the tree, and knows its handle, its kind and the text of its
path. -/
theorem InShape.exists_at?_of_mem_shown (hd : doc.InShape) :
    ∀ b ∈ doc.rootBranch :: doc.shown,
      ∃ c, doc.root.at? b.path = some c ∧ b.node = c.id ∧ b.kind = c.kind ∧
        b.text = b.path.text := by
  intro b hb
  rcases List.mem_cons.mp hb with rfl | hb
  · exact ⟨doc.root, rfl, rfl, rfl, rfl⟩
  · obtain ⟨before, key, c, hl⟩ := hd.leads_of_mem_shown b hb
    exact ⟨c, hl.at?, hl.node, hl.kind, hl.text⟩

/-- A branch below the root was issued under that of the container of its node. -/
theorem InShape.parent_of_mem_shown (hd : doc.InShape) {b : Branch} (hb : b ∈ doc.shown) :
    ∃ a ∈ doc.rootBranch :: doc.shown, b.parent = some a.id ∧
      doc.parent b.node = .ok (some a.node) := by
  obtain ⟨a, ha, hparent, key, hpath⟩ :=
    Node.exists_parent_of_mem_branchesBelow doc.rootBranch 1 doc.root b hb
  obtain ⟨c, hc, hnode, -⟩ := hd.exists_at?_of_mem_shown b (List.mem_cons_of_mem _ hb)
  obtain ⟨above, habove, hanode, -⟩ := hd.exists_at?_of_mem_shown a ha
  obtain ⟨n, hn⟩ := hd
  rw [hn.root_eq] at hc habove
  -- Its path continues that of the other branch, so the node there is the container.
  rw [hpath, Shape.at?_concat habove] at hc
  obtain ⟨p, hp⟩ := hn.holds.at? habove
  refine ⟨a, ha, hparent, ?_⟩
  rw [hnode, hanode]
  exact parent_of_holds (hp.kids c (Node.mem_kids_of_part? hc))

/-- The branch of the root and those that are shown are an itinerary of the document. -/
theorem InShape.itinerary (hd : doc.InShape) : doc.Itinerary (doc.rootBranch :: doc.shown) := by
  have hid := doc.get?_id_of_mem_shown
  have hat := hd.exists_at?_of_mem_shown
  have hparent := fun b hb => hd.parent_of_mem_shown (b := b) hb
  have hhandles := doc.map_node_shown
  obtain ⟨n, hn⟩ := hd
  rw [hn.root_eq] at hat hhandles
  -- What is said of branches is said of the nodes that they lead to.
  constructor
  case order =>
    have hordered : doc.root.value.Ordered := hn.root_eq ▸ hn.ordered
    obtain ⟨hcontinues, hbelow⟩ := Node.pairwise_branchesBelow doc.rootBranch 1 hordered
    refine List.pairwise_cons.mpr ⟨fun b hb => ?_, hbelow⟩
    obtain ⟨p, -, rest, hpath⟩ := hcontinues b hb
    rw [hpath]
    rfl
  case once =>
    rw [hhandles]
    exact hn.nodup
  case covers =>
    intro k
    rw [← List.mem_map, hhandles]
    exact ⟨fun hk => hn.holds.isSome_of_mem hk, hn.covers k⟩
  case length =>
    rw [← List.length_map Branch.node, hhandles]
    exact hn.live.symm
  case id => exact hid
  case pathOf =>
    intro b hb
    obtain ⟨c, hc, hnode, -⟩ := hat b hb
    rw [hnode]
    exact hn.pathOf_of_at? hc
  case get =>
    intro b hb
    obtain ⟨c, hc, hnode, -⟩ := hat b hb
    rw [hnode]
    exact hn.get_of_at? hc
  case kind =>
    intro b hb
    obtain ⟨c, hc, hnode, hkind, -⟩ := hat b hb
    obtain ⟨p, hp⟩ := hn.holds.at? hc
    rw [hnode, hkind]
    exact kind_of_holds hp
  case text =>
    intro b hb
    obtain ⟨c, -, -, -, htext⟩ := hat b hb
    exact htext
  case parent =>
    intro b hb
    rcases List.mem_cons.mp hb with rfl | hb
    · show doc.parent doc.root.id = .ok none
      rw [hn.root_eq]
      exact parent_of_holds hn.holds
    · obtain ⟨a, ha, hissued, hcontainer⟩ := hparent b hb
      rw [Tracker.parentOf?, hissued, Option.bind_some, hid a ha]
      exact hcontainer

/-- What a walk issues does not depend on its visitor. -/
theorem InShape.branches_eq (hd : doc.InShape) :
    doc.branches = .ok (doc.rootBranch :: doc.shown) := by
  let visit : Visit Unit DocumentError := fun _ _ => pure (.ok ())
  obtain ⟨s, hs⟩ : ∃ s, (visits visit doc.shown ()).value = .ok s :=
    exists_value_visits (fun _ _ _ => ⟨(), rfl⟩) ()
  rw [value_visits] at hs
  rw [branches, hd.value_walk, hs]
  rfl

/-- A walk fails where its visitor does, and in no other way. -/
theorem InShape.value_walk_eq_error_iff {σ ε : Type} {ofDocument : DocumentError → ε}
    {visit : Visit σ ε} {state : σ} {e : ε} (hd : doc.InShape) :
    (doc.walk ofDocument visit state).value = .error e ↔
      visitAll visit doc.shown state = .error e := by
  rw [hd.value_walk]
  cases visitAll visit doc.shown state <;> simp [Except.map]

/-- A walk shows every node below the root once, in pre-order, and fails only where its visitor
does.  The branches it issues are those of the nodes: each leads to its node and back, and was
issued under the branch of the container.  A visitor that never fails sees all of them; one that
fails has seen those up to the branch where it fails, and nothing was noted but what it noted there.
-/
theorem Reachable.walk_visits_once (hr : doc.Reachable) :
    ∃ root shown, root.node = doc.top ∧ doc.branches = .ok (root :: shown) ∧
      doc.Itinerary (root :: shown) ∧
      (∀ (σ ε : Type) (ofDocument : DocumentError → ε) (visitRoot visit : Visit σ ε) (state : σ),
        doc.walkFromRoot ofDocument visitRoot visit state = (do
          match ← visitRoot state root with
          | .error e => pure (.error e)
          | .ok state =>
            return (← visits visit shown state).map fun state => (state, ⟨root :: shown⟩))) ∧
      ∀ (σ ε : Type) (ofDocument : DocumentError → ε) (visit : Visit σ ε) (state : σ),
        ((∀ s, ∀ b ∈ shown, ∃ s', (visit s b).value = .ok s') →
          ∃ s, (visits visit shown state).value = .ok s ∧
            doc.walk ofDocument visit state
              = ⟨.ok (s, ⟨root :: shown⟩), (visits visit shown state).entries⟩) ∧
        ∀ e, (doc.walk ofDocument visit state).value = .error e ↔
          ∃ before b after s, shown = before ++ b :: after ∧
            (visits visit before state).value = .ok s ∧ (visit s b).value = .error e ∧
            (doc.walk ofDocument visit state).entries
              = (visits visit before state).entries ++ (visit s b).entries := by
  have hd := hr.inShape
  obtain ⟨n, hn⟩ := hd
  have htop : doc.rootBranch.node = doc.top := by
    rw [← hn.top, ← hn.root_eq]
    rfl
  refine ⟨doc.rootBranch, doc.shown, htop, hr.inShape.branches_eq, hr.inShape.itinerary,
    fun σ ε ofDocument visitRoot visit state =>
      hr.inShape.walkFromRoot_eq ofDocument visitRoot visit state,
    fun σ ε ofDocument visit state => ?_⟩
  have hwalk := hr.inShape.walk_eq ofDocument visit state
  -- The walk is the visits and nothing else, so both parts are about the visits.
  refine ⟨fun hok => ?_, fun e => ⟨fun he => ?_, ?_⟩⟩
  · obtain ⟨s, hs⟩ := exists_value_visits hok state
    refine ⟨s, hs, ?_⟩
    rw [hwalk]
    show Logged.mk _ _ = _
    rw [hs]
    exact congrArg _ (List.append_nil _)
  · obtain ⟨before, b, after, s, hshown, hbefore, hb⟩ :=
      visitAll_eq_error_iff.mp (hr.inShape.value_walk_eq_error_iff.mp he)
    rw [← value_visits] at hbefore
    refine ⟨before, b, after, s, hshown, hbefore, hb, ?_⟩
    rw [hwalk, hshown, visits_of_error hbefore hb]
    exact List.append_nil _
  · rintro ⟨before, b, after, s, hshown, hbefore, hb, -⟩
    rw [hwalk, hshown, visits_of_error hbefore hb]
    rfl

/-- A field that was added last is shown first. -/
theorem Reachable.walk_visits_once_of_added :
    let before := Document.ofValue (.object [("b", .array [.null, .object [("c", .string "x")]])])
    let doc := ((Change.set [.field "a"] (.boolean true)).apply before).value.2
    let record : Visit (List Path) DocumentError := fun paths branch =>
      pure (.ok (paths ++ [branch.path]))
    doc.Reachable ∧ (doc.get [.field "a"]).toOption = some 5 ∧ ∃ tracker,
      (doc.walk id record []).value = .ok ([[.field "a"], [.field "b"], [.field "b", .index 0],
        [.field "b", .index 1], [.field "b", .index 1, .field "c"]], tracker) ∧
      tracker.len = doc.len ∧ doc.Itinerary tracker.branches := by
  intro before doc record
  have hr : doc.Reachable := by
    refine (Reachable.ofValue ?_).change (c := .set [.field "a"] (.boolean true)) trivial
    simp only [Value.Ordered, Value.OrderedFields, Value.OrderedItems, Fields.Ordered]
    decide
  have hget : (doc.get [.field "a"]).toOption = some 5 := by decide +kernel
  -- The paths are found by running the walk; that they are an itinerary is the theorem.
  have hpaths : (doc.walk id record []).value.toOption.map (·.1) = some [[.field "a"],
      [.field "b"], [.field "b", .index 0], [.field "b", .index 1],
      [.field "b", .index 1, .field "c"]] := by
    decide +kernel
  clear_value doc
  obtain ⟨root, shown, -, -, hitinerary, -, hwalk⟩ := hr.walk_visits_once
  obtain ⟨paths, -, hrun⟩ := (hwalk _ _ id record []).1 fun s b _ => ⟨_, rfl⟩
  rw [hrun] at hpaths ⊢
  obtain rfl := Option.some.inj hpaths
  exact ⟨hr, hget, ⟨root :: shown⟩, rfl, hitinerary.length, hitinerary⟩

end Document

end Expansion
