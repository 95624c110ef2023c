import Mathlib.Data.List.Induction
import Mathlib.Data.List.Infix
import Mathlib.Logic.Function.Basic

/-!
# Trees of names

A store holds nodes, and from each node a name leads to at most one other node.  The node at a
path is found by following its names from the root.  When no node is entered in two ways, a node
is at one path only, and the store shows a tree: what stands at each path.

Main results:

- Theorem {lit}`Rooted.walk_inj`: a node is at one path only.
- Theorems {lit}`Rooted.view_set`, {lit}`Rooted.view_link`, {lit}`Rooted.view_unlink` and
  {lit}`Rooted.view_move`: a change of one node or of one or two edges is a change of the tree at
  one path, or moves what stands under one path under another one.
-/

namespace Nyxis
namespace NameTree

variable {I N A : Type*}

/-- The node that the names lead to. -/
def walk (edge : I → N → Option I) : I → List N → Option I
  | i, [] => some i
  | i, n :: ns => (edge i n).bind (fun j => walk edge j ns)

/-- What stands at a path. -/
def view (edge : I → N → Option I) (obj : I → A) (root : I) (path : List N) : Option A :=
  (walk edge root path).map obj

variable {edge edge' : I → N → Option I} {obj obj' : I → A} {root i j k c : I}
variable {p q path : List N} {n m : N}

@[simp]
theorem walk_nil : walk edge i [] = some i :=
  rfl

@[simp]
theorem walk_cons : walk edge i (n :: p) = (edge i n).bind (fun j => walk edge j p) :=
  rfl

theorem walk_append : walk edge i (p ++ q) = (walk edge i p).bind (fun j => walk edge j q) := by
  induction p generalizing i with
  | nil => rfl
  | cons n p ih =>
      simp only [List.cons_append, walk_cons]
      cases edge i n with
      | none => rfl
      | some j => exact ih

theorem walk_snoc : walk edge i (p ++ [n]) = (walk edge i p).bind (fun j => edge j n) := by
  rw [walk_append]
  congr 1
  funext j
  cases hedge : edge j n <;> simp [hedge]

/-- The walk ends where it ended when the edges on the way have stayed. -/
theorem walk_congr (h : ∀ q n j, q ++ [n] <+: path → walk edge i q = some j →
    edge' j n = edge j n) : walk edge' i path = walk edge i path := by
  induction path using List.reverseRecOn with
  | nil => rfl
  | append_singleton path n ih =>
      have hfront : walk edge' i path = walk edge i path :=
        ih (fun q m j hq hj => h q m j (hq.trans (List.prefix_append path [n])) hj)
      rw [walk_snoc, walk_snoc, hfront]
      cases hwalk : walk edge i path with
      | none => rfl
      | some j => exact h path n j (List.prefix_refl _) hwalk

/-! ## Trees -/

/-- No edge leads to the root, and to each node at the end of a walk one edge at most. -/
structure Rooted (edge : I → N → Option I) (root : I) : Prop where
  entry : ∀ p i n, walk edge root p = some i → edge i n ≠ some root
  once : ∀ p q i j n m c, walk edge root p = some i → walk edge root q = some j →
    edge i n = some c → edge j m = some c → i = j ∧ n = m

/-- A node is at one path only. -/
theorem Rooted.walk_inj (h : Rooted edge root) (hp : walk edge root p = some i)
    (hq : walk edge root q = some i) : p = q := by
  induction p using List.reverseRecOn generalizing i q with
  | nil =>
      obtain rfl : root = i := Option.some.inj hp
      cases q using List.reverseRecOn with
      | nil => rfl
      | append_singleton q m =>
          rw [walk_snoc] at hq
          obtain ⟨j, hj, hedge⟩ := Option.bind_eq_some_iff.mp hq
          exact absurd hedge (h.entry q j m hj)
  | append_singleton p n ih =>
      rw [walk_snoc] at hp
      obtain ⟨j, hj, hedge⟩ := Option.bind_eq_some_iff.mp hp
      cases q using List.reverseRecOn with
      | nil =>
          obtain rfl : root = i := Option.some.inj hq
          exact absurd hedge (h.entry p j n hj)
      | append_singleton q m =>
          rw [walk_snoc] at hq
          obtain ⟨k, hk, hedge'⟩ := Option.bind_eq_some_iff.mp hq
          obtain ⟨rfl, rfl⟩ := h.once p q j k n m i hj hk hedge hedge'
          rw [ih hj hk]

theorem not_snoc_prefix : ¬p ++ [n] <+: p := by
  intro h
  have hle := h.length_le
  rw [List.length_append] at hle
  exact absurd hle (Nat.not_succ_le_self _)

variable [DecidableEq N]

/-- The tree without what stands under a path. -/
def cut (old : List N) (t : List N → Option A) (path : List N) : Option A :=
  if old <+: path then none else t path

/-- The tree with what stood under one path under another one. -/
def move (old new : List N) (t : List N → Option A) (path : List N) : Option A :=
  if old <+: path then none
  else if new <+: path then t (old ++ path.drop new.length)
  else t path

omit [DecidableEq N] in
/-- Above and beside a changed edge the walks are the same. -/
theorem Rooted.walk_beside (h : Rooted edge root) (hp : walk edge root p = some i)
    (hedges : ∀ q j m, walk edge root q = some j → edge i n ≠ some j → ¬(j = i ∧ m = n) →
      edge' j m = edge j m)
    (hpath : ¬p ++ [n] <+: path) : walk edge' root path = walk edge root path := by
  refine walk_congr (fun q m j hq hj => hedges q j m hj ?_ ?_)
  · intro hedge
    have hend : walk edge root (p ++ [n]) = some j := by
      rw [walk_snoc, hp]
      exact hedge
    rw [h.walk_inj hj hend] at hq
    exact hpath ((List.prefix_append _ _).trans hq)
  · rintro ⟨rfl, rfl⟩
    rw [h.walk_inj hj hp] at hq
    exact hpath hq

/-- Another object at one node. -/
theorem Rooted.view_set (h : Rooted edge root) (hp : walk edge root p = some i)
    (hedges : ∀ q j m, walk edge root q = some j → edge' j m = edge j m)
    (hobj : ∀ q j, walk edge root q = some j → j ≠ i → obj' j = obj j) :
    view edge' obj' root = Function.update (view edge obj root) p (some (obj' i)) := by
  funext path
  have hwalk : walk edge' root path = walk edge root path :=
    walk_congr (fun q m j _ hj => hedges q j m hj)
  rw [view, hwalk]
  by_cases hpath : path = p
  · subst hpath
    rw [hp, Function.update_self]
    rfl
  · rw [Function.update_of_ne hpath, view]
    cases hj : walk edge root path with
    | none => rfl
    | some j =>
        have hne : j ≠ i := by
          rintro rfl
          exact hpath (h.walk_inj hj hp)
        rw [Option.map_some, Option.map_some, hobj path j hj hne]

/-- A new edge to a node without edges. -/
theorem Rooted.view_link (h : Rooted edge root) (hp : walk edge root p = some i)
    (hfree : edge i n = none) (hnew : edge' i n = some c)
    (hedges : ∀ q j m, walk edge root q = some j → ¬(j = i ∧ m = n) → edge' j m = edge j m)
    (hleaf : ∀ m, edge' c m = none) (hobj : ∀ q j, walk edge root q = some j → obj' j = obj j) :
    view edge' obj' root = Function.update (view edge obj root) (p ++ [n]) (some (obj' c)) := by
  have hbeside : ∀ path, ¬p ++ [n] <+: path → walk edge' root path = walk edge root path :=
    fun path => h.walk_beside hp (fun q j m hj _ => hedges q j m hj)
  funext path
  by_cases hpath : p ++ [n] <+: path
  · obtain ⟨rest, rfl⟩ := hpath
    have hend : walk edge' root (p ++ [n]) = some c := by
      rw [walk_snoc, hbeside p not_snoc_prefix, hp]
      exact hnew
    have hnone : walk edge root (p ++ [n]) = none := by
      rw [walk_snoc, hp]
      exact hfree
    rw [view, walk_append, hend]
    cases rest with
    | nil => rw [List.append_nil, Function.update_self]; rfl
    | cons m rest =>
        rw [Function.update_of_ne (by simp), view, walk_append, hnone]
        simp [hleaf]
  · have hne : path ≠ p ++ [n] := by
      rintro rfl
      exact hpath (List.prefix_refl _)
    rw [view, hbeside path hpath, Function.update_of_ne hne, view]
    cases hj : walk edge root path with
    | none => rfl
    | some j => rw [Option.map_some, Option.map_some, hobj path j hj]

/-- An edge goes away, and with it what it led to. -/
theorem Rooted.view_unlink (h : Rooted edge root) (hp : walk edge root p = some i)
    (hgone : edge' i n = none)
    (hedges : ∀ q j m, walk edge root q = some j → edge i n ≠ some j → ¬(j = i ∧ m = n) →
      edge' j m = edge j m)
    (hobj : ∀ q j, walk edge root q = some j → edge i n ≠ some j → obj' j = obj j) :
    view edge' obj' root = cut (p ++ [n]) (view edge obj root) := by
  funext path
  rw [cut]
  by_cases hpath : p ++ [n] <+: path
  · obtain ⟨rest, rfl⟩ := hpath
    rw [if_pos (List.prefix_append ..), view, walk_append, walk_snoc,
      h.walk_beside hp hedges not_snoc_prefix, hp, Option.bind_some, hgone]
    rfl
  · rw [if_neg hpath, view, h.walk_beside hp hedges hpath, view]
    cases hj : walk edge root path with
    | none => rfl
    | some j =>
        have hne : edge i n ≠ some j := by
          intro hedge
          have hend : walk edge root (p ++ [n]) = some j := by
            rw [walk_snoc, hp]
            exact hedge
          exact hpath (h.walk_inj hend hj ▸ List.prefix_refl _)
        rw [Option.map_some, Option.map_some, hobj path j hj hne]

/-- An edge goes away, and another one leads to the same node.  If the new edge is below the old
one, all of it is lost. -/
theorem Rooted.view_move (h : Rooted edge root) (hp : walk edge root p = some i)
    (hold : edge i n = some c) (hq : walk edge root q = some k) (hfree : edge k m = none)
    (hgone : edge' i n = none) (hnew : edge' k m = some c)
    (hedges : ∀ r j x, walk edge root r = some j → ¬(j = i ∧ x = n) → ¬(j = k ∧ x = m) →
      edge' j x = edge j x)
    (hobj : ∀ r j, walk edge root r = some j → obj' j = obj j) :
    view edge' obj' root = move (p ++ [n]) (q ++ [m]) (view edge obj root) := by
  have hmoved : walk edge root (p ++ [n]) = some c := by
    rw [walk_snoc, hp]
    exact hold
  have habsent : walk edge root (q ++ [m]) = none := by
    rw [walk_snoc, hq]
    exact hfree
  -- a walk that does not pass the two edges is the same
  have hbeside : ∀ path, ¬p ++ [n] <+: path → ¬q ++ [m] <+: path →
      walk edge' root path = walk edge root path := by
    intro path hnot hnot'
    refine walk_congr (fun r x j hr hj => hedges r j x hj ?_ ?_)
    · rintro ⟨rfl, rfl⟩
      exact hnot (h.walk_inj hj hp ▸ hr)
    · rintro ⟨rfl, rfl⟩
      exact hnot' (h.walk_inj hj hq ▸ hr)
  have hnotBelow : ∀ {r : List N} {j : I}, walk edge root r = some j → ¬q ++ [m] <+: r := by
    rintro r j hr ⟨rest, rfl⟩
    rw [walk_append, habsent] at hr
    cases hr
  funext path
  rw [move]
  by_cases hpath : p ++ [n] <+: path
  · obtain ⟨rest, rfl⟩ := hpath
    rw [if_pos (List.prefix_append ..), view, walk_append, walk_snoc,
      hbeside p not_snoc_prefix (hnotBelow hp), hp, Option.bind_some, hgone]
    rfl
  rw [if_neg hpath]
  by_cases hpath' : q ++ [m] <+: path
  · obtain ⟨rest, rfl⟩ := hpath'
    have hq' : ¬p ++ [n] <+: q := fun hpre =>
      hpath (hpre.trans ((List.prefix_append q [m]).trans (List.prefix_append _ rest)))
    have hend : walk edge' root (q ++ [m]) = some c := by
      rw [walk_snoc, hbeside q hq' not_snoc_prefix, hq]
      exact hnew
    -- below the moved node nothing has changed
    have hrest : walk edge' c rest = walk edge c rest := by
      refine walk_congr (fun r x j _ hj => ?_)
      have hreach : walk edge root (p ++ [n] ++ r) = some j := by
        rw [walk_append, hmoved]
        exact hj
      refine hedges _ j x hreach ?_ ?_
      · rintro ⟨rfl, rfl⟩
        have hlength := congrArg List.length (h.walk_inj hp hreach)
        simp only [List.length_append, List.length_singleton] at hlength
        omega
      · rintro ⟨rfl, rfl⟩
        exact hq' (h.walk_inj hq hreach ▸ List.prefix_append (p ++ [n]) r)
    rw [if_pos (List.prefix_append ..), List.drop_left, view, walk_append, hend, Option.bind_some,
      hrest, view, walk_append, hmoved, Option.bind_some]
    cases hj : walk edge c rest with
    | none => rfl
    | some j =>
        have hreach : walk edge root (p ++ [n] ++ rest) = some j := by
          rw [walk_append, hmoved]
          exact hj
        rw [Option.map_some, Option.map_some, hobj _ j hreach]
  · rw [if_neg hpath', view, hbeside path hpath hpath', view]
    cases hj : walk edge root path with
    | none => rfl
    | some j => rw [Option.map_some, Option.map_some, hobj path j hj]

end NameTree
end Nyxis
