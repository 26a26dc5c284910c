import Expansion.Proofs.Value.Merge
import Expansion.Proofs.Value.Removal

/-!
  Changing a value from the bottom up.

  `edit?` changes the part at a path in place.  Writing, removing and merging below a path are edits
  at the path (`write?_append`, `remove?_append`, `overlay?_append`), and two edits at a path are
  one (`bind_edit?`).

  `bottomUp?` changes every part, each after the parts in it, by a step that may depend on the path.
  Edits that run one after the other, deepest first, are one pass from the bottom up, in which the
  edits at one path run in turn (`foldlM_eq_bottomUp?`): the first edit is the first thing that the
  pass does at its path, since none that is left is below it (`bottomUp?_edit?`, by induction on the
  path).  What makes the induction go through is that a pass over a value is a pass over one of its
  parts, filled into what becomes of the others (`exists_fill`).

  `rewrite settle` is a pass that always succeeds: an object is settled from its fields as they were
  and as they have become.  A pass whose steps either settle objects or fail is this rewriting, and
  it succeeds when each step does (`bottomUp?_eq_some_iff`).
-/

namespace Expansion.Value

variable {key : Key} {path p q : Path} {v v' u u' : Value} {f : Value → Option Value}

/-! ## One edit -/

/-- Changes the part at a path, which must be there. -/
def edit? (path : Path) (f : Value → Option Value) (v : Value) : Option Value :=
  (v.get? path).bind fun c => (f c).bind (v.write? path)

/-- An edit at the root is the change itself. -/
theorem edit?_nil (f : Value → Option Value) (v : Value) : v.edit? [] f = f v :=
  Option.bind_fun_some (f v)

/-- An edit below a key is an edit of the part under the key, put back in its place. -/
theorem edit?_cons (hu : v.part? key = some u) (path : Path) (f : Value → Option Value) :
    v.edit? (key :: path) f = (u.edit? path f).bind (v.place? key) := by
  have hget : v.get? (key :: path) = u.get? path := by
    show (v.part? key).bind (get? path) = _
    rw [hu, Option.bind_some]
  rw [edit?, edit?, hget, Option.bind_assoc]
  refine congrArg _ (funext fun c => ?_)
  rw [Option.bind_assoc]
  exact congrArg _ (funext fun w => write?_cons hu)

/-- An edit changes what is found at the path and writes it back. -/
theorem edit?_of_get? (hu : v.get? path = some u) (f : Value → Option Value) :
    v.edit? path f = (f u).bind (v.write? path) := by
  rw [edit?, hu, Option.bind_some]

/-- Two edits at a path are one: the second finds what the first has written, and of two writes the
last one counts. -/
theorem bind_edit? (path : Path) (f g : Value → Option Value) (v : Value) :
    (v.edit? path f).bind (edit? path g) = v.edit? path fun c => (f c).bind g := by
  cases hu : v.get? path with
  | none => simp [edit?, hu]
  | some u =>
    rw [edit?_of_get? hu, edit?_of_get? hu, Option.bind_assoc, Option.bind_assoc]
    refine congrArg _ (funext fun c => ?_)
    obtain ⟨v', hv'⟩ := Option.isSome_iff_exists.mp (isSome_write?_of_get? hu c)
    have hc : v'.get? path = some c := by
      have hbelow := get?_of_write? hv' []
      rwa [List.append_nil] at hbelow
    rw [hv', Option.bind_some, edit?_of_get? hc]
    exact congrArg _ (funext fun w => write?_write? hv' w)

/-- A write below a path is an edit at the path. -/
theorem write?_append (hu : v.get? path = some u) (p : Path) (w : Value) :
    v.write? (path ++ p) w = v.edit? path (·.write? p w) := by
  induction path generalizing v with
  | nil => exact (edit?_nil (·.write? p w) v).symm
  | cons key rest ih =>
    obtain ⟨c, hc, hu⟩ := Option.bind_eq_some_iff.mp hu
    rw [List.cons_append, write?_cons hc, edit?_cons hc, ih hu]

/-- A removal below a path is an edit at the path. -/
theorem remove?_append (hu : v.get? path = some u) (hp : p ≠ []) :
    v.remove? (path ++ p) = v.edit? path (remove? p) := by
  induction path generalizing v with
  | nil => exact (edit?_nil (remove? p) v).symm
  | cons key rest ih =>
    obtain ⟨c, hc, hu⟩ := Option.bind_eq_some_iff.mp hu
    rw [List.cons_append, remove?_cons (List.append_ne_nil_of_right_ne_nil rest hp) hc,
      edit?_cons hc, ih hu]

/-- An overlay below a path is an edit at the path.  A source without parts changes nothing, and
writing back what is there changes nothing either. -/
theorem overlay?_append (hv : v.Ordered) (hu : v.get? path = some u) (p : Path) (source : Value) :
    overlay? (path ++ p) source v = v.edit? path (overlay? p source) := by
  rw [edit?_of_get? hu, overlay?, overlay?]
  cases source.hasParts with
  | false => exact (write?_self hv hu).symm
  | true =>
    rw [if_pos rfl, if_pos rfl, get?_append, hu, Option.bind_some]
    cases u.get? p with
    | none => rfl
    | some target =>
      simp only [Option.bind_some]
      split
      · rw [write?_append hu, edit?_of_get? hu]
      · rfl

/-- An edit that gives values in order keeps the order. -/
theorem Ordered.edit? (hv : v.Ordered) (hf : ∀ c c', c.Ordered → f c = some c' → c'.Ordered)
    (h : v.edit? path f = some v') : v'.Ordered := by
  obtain ⟨c, hc, h⟩ := Option.bind_eq_some_iff.mp h
  obtain ⟨c', hc', h⟩ := Option.bind_eq_some_iff.mp h
  exact hv.write? (hf c c' (hv.get? hc) hc') h

/-- After an edit there is still something at the paths that do not lead below it. -/
theorem isSome_get?_of_edit? (hv : v.Ordered) (h : v.edit? path f = some v')
    (hlen : q.length ≤ path.length) (hq : (v.get? q).isSome) : (v'.get? q).isSome := by
  induction path generalizing v v' q with
  | nil =>
    obtain rfl : q = [] := List.eq_nil_of_length_eq_zero (Nat.le_zero.mp hlen)
    rfl
  | cons key rest ih =>
    cases q with
    | nil => rfl
    | cons k q =>
      obtain ⟨x, hx⟩ := Option.isSome_iff_exists.mp hq
      obtain ⟨w, hw, hx⟩ := Option.bind_eq_some_iff.mp hx
      obtain ⟨u, hu⟩ : ∃ u, v.part? key = some u := by
        obtain ⟨c, hc, -⟩ := Option.bind_eq_some_iff.mp h
        obtain ⟨u, hu, -⟩ := Option.bind_eq_some_iff.mp hc
        exact ⟨u, hu⟩
      rw [edit?_cons hu] at h
      obtain ⟨u', hu', hplace⟩ := Option.bind_eq_some_iff.mp h
      show ((v'.part? k).bind (get? q)).isSome
      -- Under the key of the edit the path is shorter by one; under another nothing has changed.
      by_cases hk : k = key
      · subst hk
        obtain rfl : u = w := Option.some.inj (hu.symm.trans hw)
        rw [part?_of_place? hplace, Option.bind_some]
        exact ih (hv.part? hu) hu' (Nat.le_of_succ_le_succ hlen)
          (Option.isSome_iff_exists.mpr ⟨x, hx⟩)
      · rw [part?_place?_of_ne hu hplace hk, hw, Option.bind_some, hx]
        rfl

/-! ## A pass over all parts -/

mutual

/-- The value after a step at every part, the parts in a part before the part itself. -/
def bottomUp? (act : Path → Value → Option Value) : Value → Option Value
  | scalar s => act [] (scalar s)
  | array items => (bottomUpItems? act 0 items).bind fun items => act [] (array items)
  | object fields => (bottomUpFields? act fields).bind fun fields => act [] (object fields)

/-- The elements, counted from `i`, after a step at every part. -/
def bottomUpItems? (act : Path → Value → Option Value) (i : Nat) :
    List Value → Option (List Value)
  | [] => some []
  | v :: rest =>
    (v.bottomUp? fun p => act (.index i :: p)).bind fun v =>
      (bottomUpItems? act (i + 1) rest).map (v :: ·)

/-- The fields after a step at every part. -/
def bottomUpFields? (act : Path → Value → Option Value) :
    List (String × Value) → Option (List (String × Value))
  | [] => some []
  | (name, v) :: rest =>
    (v.bottomUp? fun p => act (.field name :: p)).bind fun v =>
      (bottomUpFields? act rest).map ((name, v) :: ·)

end

variable {act act' : Path → Value → Option Value}

/-- A pass over a row of elements, in two pieces. -/
theorem bottomUpItems?_append (i : Nat) (before after : List Value) :
    bottomUpItems? act i (before ++ after) =
      (bottomUpItems? act i before).bind fun b =>
        (bottomUpItems? act (i + before.length) after).map (b ++ ·) := by
  induction before generalizing i with
  | nil => simp [bottomUpItems?]
  | cons v rest ih =>
    have hi : i + 1 + rest.length = i + (v :: rest).length := by
      rw [List.length_cons]
      omega
    rw [List.cons_append, bottomUpItems?, bottomUpItems?, Option.bind_assoc]
    refine congrArg _ (funext fun v => ?_)
    rw [ih, hi]
    cases bottomUpItems? act (i + 1) rest <;> simp [Function.comp_def]

/-- A pass over a row of fields, in two pieces. -/
theorem bottomUpFields?_append (before after : List (String × Value)) :
    bottomUpFields? act (before ++ after) =
      (bottomUpFields? act before).bind fun b =>
        (bottomUpFields? act after).map (b ++ ·) := by
  induction before with
  | nil => simp [bottomUpFields?]
  | cons entry rest ih =>
    rw [List.cons_append, bottomUpFields?, bottomUpFields?, Option.bind_assoc]
    refine congrArg _ (funext fun v => ?_)
    rw [ih]
    cases bottomUpFields? act rest <;> simp [Function.comp_def]

/-- What becomes of elements depends on the steps at and below them. -/
theorem bottomUpItems?_congr {i : Nat} {items : List Value}
    (h : ∀ j, i ≤ j → j < i + items.length → ∀ p, act (.index j :: p) = act' (.index j :: p)) :
    bottomUpItems? act i items = bottomUpItems? act' i items := by
  induction items generalizing i with
  | nil => rfl
  | cons v rest ih =>
    have hlen : (v :: rest).length = rest.length + 1 := List.length_cons
    have hfirst : ∀ p, act (.index i :: p) = act' (.index i :: p) :=
      h i (Nat.le_refl i) (by omega)
    have hrest : bottomUpItems? act (i + 1) rest = bottomUpItems? act' (i + 1) rest :=
      ih fun j hle hlt => h j (by omega) (by omega)
    rw [bottomUpItems?, bottomUpItems?, hrest, funext hfirst]

/-- What becomes of fields depends on the steps at and below them. -/
theorem bottomUpFields?_congr {fields : List (String × Value)}
    (h : ∀ entry ∈ fields, ∀ p, act (.field entry.1 :: p) = act' (.field entry.1 :: p)) :
    bottomUpFields? act fields = bottomUpFields? act' fields := by
  induction fields with
  | nil => rfl
  | cons entry rest ih =>
    obtain ⟨hfirst, hrest⟩ := List.forall_mem_cons.mp h
    rw [bottomUpFields?, bottomUpFields?, ih hrest, funext hfirst]

mutual

/-- Steps that change nothing leave the value. -/
theorem bottomUp?_some : (v : Value) → v.bottomUp? (fun _ => some) = some v
  | scalar _ => rfl
  | array items => by rw [bottomUp?, bottomUpItems?_some 0 items, Option.bind_some]
  | object fields => by rw [bottomUp?, bottomUpFields?_some fields, Option.bind_some]

/-- Steps that change nothing leave the elements. -/
theorem bottomUpItems?_some (i : Nat) :
    (items : List Value) → bottomUpItems? (fun _ => some) i items = some items
  | [] => rfl
  | v :: rest => by
    rw [bottomUpItems?, bottomUp?_some v, bottomUpItems?_some (i + 1) rest]
    rfl

/-- Steps that change nothing leave the fields. -/
theorem bottomUpFields?_some :
    (fields : List (String × Value)) → bottomUpFields? (fun _ => some) fields = some fields
  | [] => rfl
  | (name, v) :: rest => by
    rw [bottomUpFields?, bottomUp?_some v, bottomUpFields?_some rest]
    rfl

end

/-- Where only the step at the root does something, the pass is this step. -/
theorem bottomUp?_of_done (h : ∀ q, q ≠ [] → act q = some) (v : Value) :
    v.bottomUp? act = act [] v := by
  have hdone : ∀ key p, act (key :: p) = some := fun key p => h _ (List.cons_ne_nil key p)
  cases v with
  | scalar s => rfl
  | array items =>
    have hitems : bottomUpItems? act 0 items = bottomUpItems? (fun _ => some) 0 items :=
      bottomUpItems?_congr fun j _ _ p => hdone (.index j) p
    rw [bottomUp?, hitems, bottomUpItems?_some, Option.bind_some]
  | object fields =>
    have hfields : bottomUpFields? act fields = bottomUpFields? (fun _ => some) fields :=
      bottomUpFields?_congr fun entry _ p => hdone (.field entry.1) p
    rw [bottomUp?, hfields, bottomUpFields?_some, Option.bind_some]

/-! ## Edits one after the other -/

/-- The pass over a value takes one part and fills it in: what happens apart from the part does not
depend on it. -/
theorem exists_fill (hv : v.Ordered) (hu : v.part? key = some u)
    (act : Path → Value → Option Value) :
    ∃ fill : Value → Option Value, ∀ u' v' act', v.place? key u' = some v' → act' [] = act [] →
      (∀ k q, k ≠ key → act' (k :: q) = act (k :: q)) →
      v'.bottomUp? act' = (u'.bottomUp? fun p => act' (key :: p)).bind fill := by
  rcases part?_cases hu with ⟨before, after, rfl, rfl⟩ | ⟨before, name, after, rfl, rfl, -⟩
  · -- An element: the row before it and the row after it are passed over without it.
    refine ⟨fun x => (bottomUpItems? act 0 before).bind fun b =>
      (bottomUpItems? act (before.length + 1) after).bind fun a =>
        act [] (array (b ++ x :: a)), fun u' v' act' hplace hroot hothers => ?_⟩
    obtain rfl := Option.some.inj ((place?_index before after u u').symm.trans hplace)
    have hbefore : bottomUpItems? act' 0 before = bottomUpItems? act 0 before :=
      bottomUpItems?_congr fun j _ hlt p => hothers _ p fun he => by
        have hj : j = before.length := Key.index.inj he
        omega
    have hafter : bottomUpItems? act' (before.length + 1) after
        = bottomUpItems? act (before.length + 1) after :=
      bottomUpItems?_congr fun j hle _ p => hothers _ p fun he => by
        have hj : j = before.length := Key.index.inj he
        omega
    rw [bottomUp?, bottomUpItems?_append, Nat.zero_add, bottomUpItems?, hbefore, hafter, hroot,
      Option.bind_comm]
    cases bottomUpItems? act 0 before with
    | none => simp
    | some b =>
      cases bottomUpItems? act (before.length + 1) after <;>
        simp [Option.bind_assoc]
  · -- A field: the same, and the other fields have other names because the object is in order.
    refine ⟨fun x => (bottomUpFields? act before).bind fun b =>
      (bottomUpFields? act after).bind fun a =>
        act [] (object (b ++ (name, x) :: a)), fun u' v' act' hplace hroot hothers => ?_⟩
    obtain rfl := Option.some.inj ((place?_field hv.1 u').symm.trans hplace)
    have hbefore : bottomUpFields? act' before = bottomUpFields? act before :=
      bottomUpFields?_congr fun entry he p => hothers _ p fun heq =>
        String.ne_of_lt (hv.1.ne_of_mem_before entry he) (Key.field.inj heq)
    have hafter : bottomUpFields? act' after = bottomUpFields? act after :=
      bottomUpFields?_congr fun entry he p => hothers _ p fun heq =>
        (String.ne_of_lt (hv.1.lt_of_mem_after entry he)).symm (Key.field.inj heq)
    rw [bottomUp?, bottomUpFields?_append, bottomUpFields?, hbefore, hafter, hroot,
      Option.bind_comm]
    cases bottomUpFields? act before with
    | none => simp
    | some b =>
      cases bottomUpFields? act after <;> simp [Option.bind_assoc]

/-- An edit before a pass that does nothing below it is the first thing that is done at its path. -/
theorem bottomUp?_edit? (hv : v.Ordered) (hu : v.get? path = some u)
    (hbelow : ∀ q, q ≠ [] → act (path ++ q) = some) (f : Value → Option Value) :
    (v.edit? path f).bind (bottomUp? act)
      = v.bottomUp? fun p => if p = path then fun c => (f c).bind (act p) else act p := by
  induction path generalizing v act with
  | nil =>
    rw [edit?_nil, bottomUp?_of_done (v := v), if_pos rfl]
    · exact congrArg _ (funext fun c => bottomUp?_of_done hbelow c)
    · intro q hq
      rw [if_neg hq]
      exact hbelow q hq
  | cons key rest ih =>
    obtain ⟨w, hw, hu⟩ := Option.bind_eq_some_iff.mp hu
    obtain ⟨fill, hfill⟩ := exists_fill hv hw act
    -- Once the changed part is back, the pass is one over that part, filled in.
    have hplaced : ∀ w', (v.place? key w').bind (bottomUp? act)
        = (w'.bottomUp? fun p => act (key :: p)).bind fill := by
      intro w'
      have hget : v.get? [key] = some w := (Option.bind_fun_some _).trans hw
      obtain ⟨v', hv'⟩ : ∃ v', v.place? key w' = some v' :=
        Option.isSome_iff_exists.mp (isSome_write?_of_get? hget w')
      rw [hv', Option.bind_some]
      exact hfill w' v' act hv' rfl fun _ _ _ => rfl
    -- And so is the pass over the value as it is, with the edit done on the way.
    have hself := hfill w v
      (fun p => if p = key :: rest then fun c => (f c).bind (act p) else act p)
      (place?_self hv hw) (if_neg (List.cons_ne_nil key rest).symm) fun k q hk =>
        if_neg fun he => hk (List.cons.inj he).1
    have hinner := @ih w (fun p => act (key :: p)) (hv.part? hw) hu fun q hq => hbelow q hq
    rw [edit?_cons hw, Option.bind_assoc, funext hplaced, ← Option.bind_assoc, hinner, hself]
    simp only [List.cons.injEq, true_and]

/-- Steps that edit the part at their paths and run one after the other, deepest first, are one pass
in which those at one path run in turn.  By induction on the steps: after the first one the others
are a pass over what it leaves, and they do nothing below it, so it can be taken into the pass. -/
theorem foldlM_eq_bottomUp? {α : Type} {place : α → Path} {step act : α → Value → Option Value}
    {steps : List α} (hv : v.Ordered)
    (hsorted : steps.Pairwise fun a b => (place b).length ≤ (place a).length)
    (hplace : ∀ a ∈ steps, (v.get? (place a)).isSome)
    (hstep : ∀ a ∈ steps, ∀ v, v.Ordered → (v.get? (place a)).isSome →
      step a v = v.edit? (place a) (act a))
    (hkeeps : ∀ a ∈ steps, ∀ c c', c.Ordered → act a c = some c' → c'.Ordered) :
    steps.foldlM (fun v a => step a v) v
      = v.bottomUp? fun p c => (steps.filter (place · = p)).foldlM (fun c a => act a c) c := by
  induction steps generalizing v with
  | nil => exact (bottomUp?_some v).symm
  | cons a rest ih =>
    obtain ⟨hfirst, hrest⟩ := List.pairwise_cons.mp hsorted
    obtain ⟨hhere, hothers⟩ := List.forall_mem_cons.mp hplace
    obtain ⟨hedit, hedits⟩ := List.forall_mem_cons.mp hstep
    obtain ⟨hkeep, hkeeps⟩ := List.forall_mem_cons.mp hkeeps
    obtain ⟨u, hu⟩ := Option.isSome_iff_exists.mp hhere
    -- What the first step leaves still has the paths of the others.
    have hleft : ∀ v', v.edit? (place a) (act a) = some v' →
        rest.foldlM (fun v a => step a v) v'
          = v'.bottomUp? fun p c => (rest.filter (place · = p)).foldlM (fun c a => act a c) c :=
      fun v' hv' => ih (hv.edit? hkeep hv') hrest
        (fun b hb => isSome_get?_of_edit? hv hv' (hfirst b hb) (hothers b hb)) hedits hkeeps
    -- The steps that are left are no deeper than the first.
    have hbelow : ∀ q, q ≠ [] →
        (fun c => (rest.filter (place · = place a ++ q)).foldlM (fun c a => act a c) c) = some := by
      intro q hq
      have hnone : rest.filter (place · = place a ++ q) = [] := by
        refine List.filter_eq_nil_iff.mpr fun b hb he => ?_
        have hlen := hfirst b hb
        have hpos := List.length_pos_iff.mpr hq
        rw [of_decide_eq_true he, List.length_append] at hlen
        omega
      rw [hnone]
      rfl
    rw [List.foldlM_cons, Option.bind_eq_bind, hedit v hv hhere, Option.bind_congr hleft,
      bottomUp?_edit? hv hu hbelow]
    refine congrArg (bottomUp? · v) (funext fun p => funext fun c => ?_)
    by_cases hp : p = place a
    · have hkept : (a :: rest).filter (place · = p) = a :: rest.filter (place · = p) :=
        List.filter_cons_of_pos (decide_eq_true hp.symm)
      rw [if_pos hp, hkept]
      rfl
    · have hpassed : (a :: rest).filter (place · = p) = rest.filter (place · = p) :=
        List.filter_cons_of_neg fun he => hp (of_decide_eq_true he).symm
      rw [if_neg hp, hpassed]

/-! ## Rewriting -/

mutual

/-- The value with every object settled, from its fields as they are and as they become. -/
def rewrite (settle : Fields Value → Fields Value → Value) : Value → Value
  | scalar s => scalar s
  | array items => array (rewriteItems settle items)
  | object fields => settle fields (rewriteFields settle fields)

/-- The elements, rewritten. -/
def rewriteItems (settle : Fields Value → Fields Value → Value) : List Value → List Value
  | [] => []
  | v :: rest => v.rewrite settle :: rewriteItems settle rest

/-- The fields with their values rewritten. -/
def rewriteFields (settle : Fields Value → Fields Value → Value) :
    List (String × Value) → List (String × Value)
  | [] => []
  | (name, v) :: rest => (name, v.rewrite settle) :: rewriteFields settle rest

end

variable {settle : Fields Value → Fields Value → Value}

/-- Fields keep their names. -/
theorem rewriteFields_eq_map (fields : List (String × Value)) :
    rewriteFields settle fields = fields.map fun entry => (entry.1, entry.2.rewrite settle) := by
  induction fields with
  | nil => rfl
  | cons entry rest ih => rw [rewriteFields, ih, List.map_cons]

/-- A field is among the rewritten ones with its value rewritten. -/
theorem mem_rewriteFields {fields : List (String × Value)} {entry : String × Value}
    (he : entry ∈ fields) : (entry.1, entry.2.rewrite settle) ∈ rewriteFields settle fields := by
  rw [rewriteFields_eq_map]
  exact List.mem_map_of_mem he

/-- Rewritten fields are in order, since they keep their names. -/
theorem ordered_rewriteFields {fields : List (String × Value)} (h : Fields.Ordered fields) :
    Fields.Ordered (rewriteFields settle fields) := by
  refine h.of_names_eq ?_
  rw [rewriteFields_eq_map, List.map_map]
  rfl

mutual

/-- A rewriting keeps the order when objects are settled by values in order. -/
theorem Ordered.rewrite
    (hsettle : ∀ fields rewritten, (object rewritten).Ordered → (settle fields rewritten).Ordered) :
    {v : Value} → v.Ordered → (v.rewrite settle).Ordered
  | scalar _, _ => trivial
  | array _, h => Ordered.rewriteItems hsettle h
  | object _, h => hsettle _ _ (Ordered.rewriteFields hsettle h)

/-- Rewritten elements are in order. -/
theorem Ordered.rewriteItems
    (hsettle : ∀ fields rewritten, (object rewritten).Ordered → (settle fields rewritten).Ordered) :
    {items : List Value} → OrderedItems items → OrderedItems (rewriteItems settle items)
  | [], _ => trivial
  | _ :: _, h => ⟨h.1.rewrite hsettle, Ordered.rewriteItems hsettle h.2⟩

/-- An object of rewritten fields is in order. -/
theorem Ordered.rewriteFields
    (hsettle : ∀ fields rewritten, (object rewritten).Ordered → (settle fields rewritten).Ordered) :
    {fields : List (String × Value)} → (object fields).Ordered →
      (object (rewriteFields settle fields)).Ordered
  | [], h => h
  | (_, _) :: _, h =>
    ⟨ordered_rewriteFields h.1, h.2.1.rewrite hsettle,
      (Ordered.rewriteFields hsettle ⟨h.1.of_cons, h.2.2⟩).2⟩

end

/-- The steps at the objects in a value settle them or fail, and the other steps change nothing. -/
structure SettlesOrFails (settle : Fields Value → Fields Value → Value)
    (act : Path → Value → Option Value) (v : Value) : Prop where
  object : ∀ p fields, v.get? p = some (object fields) →
    act p (.object (rewriteFields settle fields)) = none ∨
      act p (.object (rewriteFields settle fields))
        = some (settle fields (rewriteFields settle fields))
  other : ∀ p u, v.get? p = some u → u.kind ≠ .object → act p = some

/-- The steps at the objects in a value succeed. -/
def Succeeds (settle : Fields Value → Fields Value → Value) (act : Path → Value → Option Value)
    (v : Value) : Prop :=
  ∀ p fields, v.get? p = some (object fields) →
    (act p (object (rewriteFields settle fields))).isSome

/-- In a part the steps settle objects or fail, too. -/
theorem SettlesOrFails.part? (h : SettlesOrFails settle act v) (hu : v.part? key = some u) :
    SettlesOrFails settle (fun p => act (key :: p)) u := by
  have hget : ∀ p, v.get? (key :: p) = u.get? p := by
    intro p
    show (v.part? key).bind (get? p) = _
    rw [hu, Option.bind_some]
  exact ⟨fun p fields hp => h.object (key :: p) fields ((hget p).trans hp),
    fun p w hp => h.other (key :: p) w ((hget p).trans hp)⟩

/-- The steps succeed at the root and in every part. -/
theorem succeeds_iff :
    Succeeds settle act v ↔
      (∀ fields, v = object fields → (act [] (object (rewriteFields settle fields))).isSome) ∧
        ∀ key u, v.part? key = some u → Succeeds settle (fun p => act (key :: p)) u := by
  constructor
  · intro h
    refine ⟨fun fields hv => h [] fields (congrArg some hv), fun key u hu p fields hp => ?_⟩
    refine h (key :: p) fields ?_
    show (v.part? key).bind (get? p) = _
    rw [hu, Option.bind_some, hp]
  · rintro ⟨hroot, hparts⟩ p fields hp
    cases p with
    | nil => exact hroot fields (Option.some.inj hp)
    | cons key p =>
      obtain ⟨u, hu, hp⟩ := Option.bind_eq_some_iff.mp hp
      exact hparts key u hu p fields hp

mutual

/-- A pass whose steps settle objects or fail is the rewriting, and succeeds when they do.  By
induction on the value: the parts of a container are rewritten or the pass has failed, and then
there is one step left, at the container itself. -/
theorem bottomUp?_eq_some_iff : (v : Value) → v.Ordered → {act : Path → Value → Option Value} →
    SettlesOrFails settle act v → (v' : Value) →
    (v.bottomUp? act = some v' ↔ v' = v.rewrite settle ∧ Succeeds settle act v)
  | scalar s, _, act, h, v' => by
    have hsucceeds : Succeeds settle act (scalar s) := succeeds_iff.mpr ⟨nofun, nofun⟩
    have hact : act [] = some := h.other [] (scalar s) rfl (by cases s <;> exact nofun)
    rw [bottomUp?, hact, rewrite, Option.some.injEq, and_iff_left hsucceeds, eq_comm]
  | array items, hv, act, h, v' => by
    have hact : act [] = some := h.other [] (array items) rfl nofun
    -- The rows of elements are counted from a position, which is the first one here.
    have hindex : ∀ j, (fun p => act (.index (0 + j) :: p)) = fun p => act (.index j :: p) :=
      fun j => by rw [Nat.zero_add]
    have hinside : ∀ j w, items[j]? = some w →
        SettlesOrFails settle (fun p => act (.index (0 + j) :: p)) w := fun j w hw => by
      rw [hindex]
      exact h.part? hw
    have hitems := bottomUpItems?_eq_some_iff items hv 0 hinside
    have hparts : Succeeds settle act (array items) ↔
        ∀ j w, items[j]? = some w → Succeeds settle (fun p => act (.index (0 + j) :: p)) w := by
      simp only [hindex]
      rw [succeeds_iff, and_iff_right nofun]
      refine ⟨fun hs j w hw => hs (.index j) w hw, fun hs key w hw => ?_⟩
      obtain ⟨j, hkey, hw⟩ := Option.bind_eq_some_iff.mp hw
      cases key with
      | field name => cases hkey
      | index k =>
        obtain rfl : k = j := Option.some.inj hkey
        exact hs k w hw
    rw [bottomUp?, hact, hparts, rewrite, Option.bind_eq_some_iff]
    constructor
    · rintro ⟨items', hrun, hv'⟩
      obtain ⟨rfl, hs⟩ := (hitems _).mp hrun
      exact ⟨(Option.some.inj hv').symm, hs⟩
    · rintro ⟨rfl, hs⟩
      exact ⟨_, (hitems _).mpr ⟨rfl, hs⟩, rfl⟩
  | object fields, hv, act, h, v' => by
    have hinside : ∀ entry ∈ fields,
        SettlesOrFails settle (fun p => act (.field entry.1 :: p)) entry.2 := fun entry he =>
      h.part? (hv.1.find?_of_mem he)
    have hfields := bottomUpFields?_eq_some_iff fields hv.2 hinside
    have hparts : Succeeds settle act (object fields) ↔
        (act [] (object (rewriteFields settle fields))).isSome ∧
          ∀ entry ∈ fields, Succeeds settle (fun p => act (.field entry.1 :: p)) entry.2 := by
      rw [succeeds_iff]
      refine and_congr ⟨fun hs => hs fields rfl, fun hs more he => ?_⟩
        ⟨fun hs entry he => hs (.field entry.1) entry.2 (hv.1.find?_of_mem he),
          fun hs key w hw => ?_⟩
      · obtain rfl := object.inj he
        exact hs
      · obtain ⟨name, hkey, hw⟩ := Option.bind_eq_some_iff.mp hw
        cases key with
        | index i => cases hkey
        | field other =>
          obtain rfl : other = name := Option.some.inj hkey
          exact hs (other, w) (Fields.mem_of_find? hw)
    rw [bottomUp?, hparts, rewrite, Option.bind_eq_some_iff]
    constructor
    · rintro ⟨fields', hrun, hv'⟩
      obtain ⟨rfl, hs⟩ := (hfields _).mp hrun
      refine ⟨?_, Option.isSome_iff_exists.mpr ⟨v', hv'⟩, hs⟩
      rcases h.object [] fields rfl with hfail | hsettled
      · rw [hfail] at hv'
        contradiction
      · exact Option.some.inj (hv'.symm.trans hsettled)
    · rintro ⟨rfl, hroot, hs⟩
      refine ⟨_, (hfields _).mpr ⟨rfl, hs⟩, ?_⟩
      rcases h.object [] fields rfl with hfail | hsettled
      · rw [hfail] at hroot
        contradiction
      · exact hsettled

/-- The same for elements, counted from a position. -/
theorem bottomUpItems?_eq_some_iff : (items : List Value) → OrderedItems items → (i : Nat) →
    {act : Path → Value → Option Value} →
    (∀ j w, items[j]? = some w → SettlesOrFails settle (fun p => act (.index (i + j) :: p)) w) →
    (items' : List Value) →
    (bottomUpItems? act i items = some items' ↔ items' = rewriteItems settle items ∧
      ∀ j w, items[j]? = some w → Succeeds settle (fun p => act (.index (i + j) :: p)) w)
  | [], _, i, act, h, items' => by
    simp [bottomUpItems?, rewriteItems, eq_comm]
  | v :: rest, hv, i, act, h, items' => by
    have hnext : ∀ j, (fun p => act (.index (i + 1 + j) :: p))
        = fun p => act (.index (i + (j + 1)) :: p) := fun j => by
      rw [Nat.add_right_comm, Nat.add_assoc]
    have hown := bottomUp?_eq_some_iff v hv.1 (h 0 v rfl)
    -- Positions in the rest are one less than in the whole row.
    have hinside : ∀ j w, rest[j]? = some w →
        SettlesOrFails settle (fun p => act (.index (i + 1 + j) :: p)) w := fun j w hw => by
      rw [hnext]
      exact h (j + 1) w hw
    have hrest := bottomUpItems?_eq_some_iff rest hv.2 (i + 1) hinside
    simp only [hnext] at hrest
    rw [bottomUpItems?, Option.bind_eq_some_iff]
    constructor
    · rintro ⟨w, hw, hrun⟩
      obtain ⟨more, hmore, rfl⟩ := Option.map_eq_some_iff.mp hrun
      obtain ⟨rfl, hs⟩ := (hown _).mp hw
      obtain ⟨rfl, hs'⟩ := (hrest _).mp hmore
      refine ⟨rfl, fun j w hw => ?_⟩
      cases j with
      | zero =>
        obtain rfl : v = w := Option.some.inj hw
        exact hs
      | succ j => exact hs' j w hw
    · rintro ⟨rfl, hs⟩
      refine ⟨v.rewrite settle, (hown _).mpr ⟨rfl, hs 0 v rfl⟩, ?_⟩
      rw [(hrest _).mpr ⟨rfl, fun j w hw => hs (j + 1) w hw⟩]
      rfl

/-- The same for fields. -/
theorem bottomUpFields?_eq_some_iff : (fields : List (String × Value)) → OrderedFields fields →
    {act : Path → Value → Option Value} →
    (∀ entry ∈ fields, SettlesOrFails settle (fun p => act (.field entry.1 :: p)) entry.2) →
    (fields' : List (String × Value)) →
    (bottomUpFields? act fields = some fields' ↔ fields' = rewriteFields settle fields ∧
      ∀ entry ∈ fields, Succeeds settle (fun p => act (.field entry.1 :: p)) entry.2)
  | [], _, act, h, fields' => by
    simp [bottomUpFields?, rewriteFields, eq_comm]
  | (name, v) :: rest, hv, act, h, fields' => by
    obtain ⟨hfirst, hothers⟩ := List.forall_mem_cons.mp h
    have hown := bottomUp?_eq_some_iff v hv.1 hfirst
    have hrest := bottomUpFields?_eq_some_iff rest hv.2 hothers
    rw [bottomUpFields?, List.forall_mem_cons, Option.bind_eq_some_iff]
    constructor
    · rintro ⟨w, hw, hrun⟩
      obtain ⟨more, hmore, rfl⟩ := Option.map_eq_some_iff.mp hrun
      obtain ⟨rfl, hs⟩ := (hown _).mp hw
      obtain ⟨rfl, hs'⟩ := (hrest _).mp hmore
      exact ⟨rfl, hs, hs'⟩
    · rintro ⟨rfl, hs, hs'⟩
      refine ⟨v.rewrite settle, (hown _).mpr ⟨rfl, hs⟩, ?_⟩
      rw [(hrest _).mpr ⟨rfl, hs'⟩]
      rfl

end

end Expansion.Value
