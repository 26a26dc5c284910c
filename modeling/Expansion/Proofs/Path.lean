import Expansion.Path

/-!
  The order of paths.

  Keys and paths are totally ordered by `cmp`, and paths that are the same in this order are the
  same.  Paths with a common beginning compare by what follows it (`cmp_append`).  In this order a
  path comes before its continuations, and these come before every path that parts from it at a
  later key: it is the order of a walk, depth first.

  The order of keys is put together by hand from that of names and that of numbers.  The order of
  paths is the lexicographic order of lists over it (`cmp_eq_compareLex`), so its laws are those of
  the library.
-/

namespace Expansion

namespace Key

/-- Keys are totally ordered.  Names are less than positions, so three keys can only be in order in
a few mixed ways, and among themselves names and positions have the order of texts and numbers. -/
instance : Std.TransCmp Key.cmp where
  eq_swap {a b} := by
    cases a with
    | index i =>
      cases b with
      | index j =>
        show compare i j = (compare j i).swap
        exact Std.OrientedCmp.eq_swap
      | field name => rfl
    | field name =>
      cases b with
      | index i => rfl
      | field name' =>
        show compare name name' = (compare name' name).swap
        exact Std.OrientedCmp.eq_swap
  isLE_trans {a b c} hab hbc := by
    -- A position is never below a name, which rules the mixed cases out or settles them at once.
    cases a with
    | field x =>
      cases c with
      | index k => rfl
      | field z =>
        cases b with
        | index j => contradiction
        | field y =>
          have hab : (compare x y).isLE := hab
          have hbc : (compare y z).isLE := hbc
          show (compare x z).isLE
          exact Std.TransCmp.isLE_trans hab hbc
    | index i =>
      cases b with
      | field y => contradiction
      | index j =>
        cases c with
        | field z => contradiction
        | index k =>
          have hab : (compare i j).isLE := hab
          have hbc : (compare j k).isLE := hbc
          show (compare i k).isLE
          exact Std.TransCmp.isLE_trans hab hbc

/-- Keys that compare as equal are the same key: names are compared with names and numbers with
numbers, and both orders tell their members apart. -/
theorem eq_of_cmp {a b : Key} (h : a.cmp b = .eq) : a = b := by
  cases a with
  | index i =>
    cases b with
    | field name => cases h
    | index j =>
      have hij : compare i j = .eq := h
      rw [Std.LawfulEqOrd.eq_of_compare hij]
  | field name =>
    cases b with
    | index i => cases h
    | field name' =>
      have hname : compare name name' = .eq := h
      rw [Std.LawfulEqOrd.eq_of_compare hname]

end Key

namespace Path

/-- The order of paths is the lexicographic one that the order of keys gives. -/
theorem cmp_eq_compareLex (p q : Path) : cmp p q = List.compareLex Key.cmp p q := by
  induction p generalizing q with
  | nil => cases q <;> rfl
  | cons a p ih =>
    cases q with
    | nil => rfl
    | cons b q => rw [cmp, List.compareLex_cons_cons, ih]

/-- Paths are totally ordered, as lists over a total order are. -/
instance : Std.TransCmp Path.cmp := by
  rw [show Path.cmp = List.compareLex Key.cmp from funext fun p => funext (cmp_eq_compareLex p)]
  infer_instance

/-- Paths that compare as equal are the same path, key by key. -/
theorem eq_of_cmp {p q : Path} (h : cmp p q = .eq) : p = q := by
  induction p generalizing q with
  | nil =>
    cases q with
    | nil => rfl
    | cons b q => cases h
  | cons a p ih =>
    cases q with
    | nil => cases h
    | cons b q =>
      rw [cmp, Ordering.then_eq_eq] at h
      rw [Key.eq_of_cmp h.1, ih h.2]

/-- Paths compare by what follows the part that they have in common: a key is equal to itself and
leaves the decision to the next. -/
theorem cmp_append (p q r : Path) : cmp (p ++ q) (p ++ r) = cmp q r := by
  induction p with
  | nil => rfl
  | cons a p ih =>
    have ha : a.cmp a = .eq := Std.ReflCmp.compare_self
    rw [List.cons_append, List.cons_append, cmp, ih, ha]
    rfl

end Path

end Expansion
