import Mathlib.Data.List.Basic
import Mathlib.Data.List.Infix
import Mathlib.Logic.Function.Basic
import Mathlib.Tactic.Common

/-!
# Trees of tables in a word memory

A table is an array of words at an address, and a present word leads to the
table at another address.  A position is the list of indices followed from a
root.  The module says how the words found at positions change when one word of
memory changes, under the assumption that the changed table sits at one position
only.

Main results:

- Theorem {lit}`entryAt_congr`: the positions of a root depend only on the
  tables found at its shorter positions.
- Theorem {lit}`entryAt_install`: installing a present word in an empty entry
  adds exactly one position.
- Theorem {lit}`entryAt_remove`: clearing a word without successors removes
  exactly one position.
-/

namespace Nyxis
namespace TableTree

variable {A W : Type} (present : W → Bool) (child : W → A)

/-- The table found at a position of a root. -/
def tableAt (mem : A → Nat → W) : A → List Nat → Option A
  | a, [] => some a
  | a, i :: p => if present (mem a i) then tableAt mem (child (mem a i)) p else none

/-- The word of a table, if it is present. -/
def slot (mem : A → Nat → W) (a : A) (i : Nat) : Option W :=
  if present (mem a i) then some (mem a i) else none

/-- The present word found at a non-empty position of a root. -/
def entryAt (mem : A → Nat → W) (a : A) (p : List Nat) : Option W :=
  match p.getLast? with
  | none => none
  | some i => (tableAt present child mem a p.dropLast).bind (fun t => slot present mem t i)

variable {present child} {mem mem' : A → Nat → W}

@[simp]
theorem tableAt_nil (a : A) : tableAt present child mem a [] = some a :=
  rfl

@[simp]
theorem entryAt_nil (a : A) : entryAt present child mem a [] = none :=
  rfl

/-- A position extended by one index is read in the table at the position. -/
theorem entryAt_snoc (a : A) (p : List Nat) (i : Nat) :
    entryAt present child mem a (p ++ [i]) =
      (tableAt present child mem a p).bind (fun t => slot present mem t i) := by
  simp [entryAt]

/-- The table at an extended position is the one its word leads to. -/
theorem tableAt_snoc (a : A) (p : List Nat) (i : Nat) :
    tableAt present child mem a (p ++ [i]) =
      (entryAt present child mem a (p ++ [i])).map child := by
  rw [entryAt_snoc]
  induction p generalizing a with
  | nil =>
      by_cases h : present (mem a i) = true <;> simp [tableAt, slot, h]
  | cons j p ih =>
      by_cases h : present (mem a j) = true
      · simpa [tableAt, h] using ih (child (mem a j))
      · simp [tableAt, h]

/-- A table at a non-empty position is the one the word at that position leads to. -/
theorem tableAt_of_ne_nil (a : A) {p : List Nat} (hp : p ≠ []) :
    tableAt present child mem a p = (entryAt present child mem a p).map child := by
  obtain ⟨q, i, rfl⟩ := List.eq_nil_or_concat p |>.resolve_left hp
  rw [List.concat_eq_append]
  exact tableAt_snoc a q i

/-- Every prefix of a position that holds a word holds a table. -/
theorem tableAt_of_entryAt_snoc {a : A} {p : List Nat} {i : Nat} {w : W}
    (h : entryAt present child mem a (p ++ [i]) = some w) :
    ∃ t, tableAt present child mem a p = some t ∧ mem t i = w ∧ present w = true := by
  rw [entryAt_snoc] at h
  cases ht : tableAt present child mem a p with
  | none =>
      rw [ht] at h
      cases h
  | some t =>
      rw [ht, Option.bind_some, slot] at h
      split at h
      next hpres =>
        cases h
        exact ⟨t, rfl, rfl, hpres⟩
      next => cases h

/-- Below a missing table there is no table. -/
theorem tableAt_append_eq_none {a : A} {p : List Nat} (r : List Nat)
    (h : tableAt present child mem a p = none) :
    tableAt present child mem a (p ++ r) = none := by
  induction p generalizing a with
  | nil => cases h
  | cons j p ih =>
      rw [List.cons_append, tableAt]
      rw [tableAt] at h
      split at h
      next hpres =>
        rw [if_pos hpres]
        exact ih h
      next hpres => rw [if_neg hpres]

/-- A table below another table is found from there. -/
theorem tableAt_append {a t : A} {p : List Nat} (r : List Nat)
    (h : tableAt present child mem a p = some t) :
    tableAt present child mem a (p ++ r) = tableAt present child mem t r := by
  induction p generalizing a with
  | nil =>
      cases h
      rfl
  | cons j p ih =>
      rw [List.cons_append, tableAt]
      rw [tableAt] at h
      split at h
      next hpres =>
        rw [if_pos hpres]
        exact ih h
      next => cases h

/-- Nothing lies below a word that is not present. -/
theorem entryAt_below_absent {a : A} {p : List Nat} (r : List Nat)
    (h : entryAt present child mem a p = none) (hp : p ≠ []) (hr : p <+: r) :
    entryAt present child mem a r = none := by
  obtain ⟨r', rfl⟩ := hr
  by_cases hnil : r' = []
  · subst hnil
    rw [List.append_nil]
    exact h
  · obtain ⟨s, j, rfl⟩ := List.eq_nil_or_concat r' |>.resolve_left hnil
    have htab : tableAt present child mem a p = none := by
      rw [tableAt_of_ne_nil a hp, h]
      rfl
    rw [List.concat_eq_append, ← List.append_assoc, entryAt_snoc,
      tableAt_append_eq_none s htab]
    rfl

/-! ## Locality -/

section Locality

variable (Ok : List Nat → Prop) (hOk : ∀ p i, Ok (p ++ [i]) → Ok p)
include hOk

/-- If two memories agree on every table found at a proper prefix of the
admissible positions, they agree on the words at these positions. -/
theorem entryAt_congr {a : A}
    (hmem : ∀ p i t, Ok (p ++ [i]) → tableAt present child mem a p = some t →
      mem' t i = mem t i) :
    ∀ p, Ok p → entryAt present child mem' a p = entryAt present child mem a p := by
  intro p
  induction p using List.reverseRecOn with
  | nil => intro _; rfl
  | append_singleton p i ih =>
      intro hp
      have htable : tableAt present child mem' a p = tableAt present child mem a p := by
        by_cases hnil : p = []
        · subst hnil
          rfl
        · rw [tableAt_of_ne_nil a hnil, tableAt_of_ne_nil a hnil, ih (hOk p i hp)]
      rw [entryAt_snoc, entryAt_snoc, htable]
      cases ht : tableAt present child mem a p with
      | none => rfl
      | some t =>
          simp only [Option.bind_some, slot, hmem p i t hp ht]

/-- Changing one word of a table leaves every position alone that does not pass
through that word. -/
theorem entryAt_of_not_prefix {a t : A} {q : List Nat} {i : Nat}
    (hmem : ∀ u j, u ≠ t ∨ j ≠ i → mem' u j = mem u j)
    (huniq : ∀ p, Ok (p ++ [i]) → tableAt present child mem a p = some t → p = q) :
    ∀ p, Ok p → ¬ (q ++ [i]) <+: p →
      entryAt present child mem' a p = entryAt present child mem a p := by
  intro p hp hpre
  refine entryAt_congr (fun r => Ok r ∧ ¬ (q ++ [i]) <+: r) ?_ ?_ p ⟨hp, hpre⟩
  · rintro r j ⟨hr, hnot⟩
    exact ⟨hOk r j hr, fun h => hnot (h.trans (List.prefix_append r [j]))⟩
  · rintro r j u ⟨hr, hnot⟩ hu
    apply hmem
    by_contra hcon
    rw [not_or, not_not, not_not] at hcon
    obtain ⟨rfl, rfl⟩ := hcon
    obtain rfl := huniq r hr hu
    exact hnot List.prefix_rfl

/-- Changing one word of a table does not move the table itself. -/
theorem tableAt_keep {a t : A} {q : List Nat} {i : Nat}
    (hmem : ∀ u j, u ≠ t ∨ j ≠ i → mem' u j = mem u j)
    (huniq : ∀ p, Ok (p ++ [i]) → tableAt present child mem a p = some t → p = q)
    (hok : Ok (q ++ [i])) :
    tableAt present child mem' a q = tableAt present child mem a q := by
  by_cases hnil : q = []
  · subst hnil
    rfl
  · have hpre : ¬ (q ++ [i]) <+: q := by
      intro h
      have hlen := h.length_le
      rw [List.length_append, List.length_singleton] at hlen
      omega
    rw [tableAt_of_ne_nil a hnil, tableAt_of_ne_nil a hnil,
      entryAt_of_not_prefix Ok hOk hmem huniq q (hOk q i hok) hpre]

end Locality

/-! ## Installing and removing one word -/

section Update

variable (Ok : List Nat → Prop) (hOk : ∀ p i, Ok (p ++ [i]) → Ok p)
include hOk

/-- Installing a present word in an empty entry adds exactly one position,
provided that the table it leads to is empty or out of reach. -/
theorem entryAt_install {a t : A} {q : List Nat} {i : Nat} {w : W}
    (hmem : ∀ u j, u ≠ t ∨ j ≠ i → mem' u j = mem u j)
    (hw : mem' t i = w) (hpresent : present w = true)
    (htable : tableAt present child mem a q = some t)
    (hempty : present (mem t i) = false)
    (huniq : ∀ p, Ok (p ++ [i]) → tableAt present child mem a p = some t → p = q)
    (hok : Ok (q ++ [i]))
    (hfresh : ∀ j, Ok (q ++ [i] ++ [j]) → ∀ k, present (mem' (child w) k) = false) :
    ∀ p, Ok p → entryAt present child mem' a p =
      if p = q ++ [i] then some w else entryAt present child mem a p := by
  have hold : entryAt present child mem a (q ++ [i]) = none := by
    rw [entryAt_snoc, htable, Option.bind_some, slot, hempty]
    rfl
  have htable' : tableAt present child mem' a q = some t := by
    rw [tableAt_keep Ok hOk hmem huniq hok]
    exact htable
  have hnew : entryAt present child mem' a (q ++ [i]) = some w := by
    rw [entryAt_snoc, htable', Option.bind_some, slot, hw, hpresent]
    rfl
  intro p hp
  by_cases heq : p = q ++ [i]
  · rw [if_pos heq, heq, hnew]
  rw [if_neg heq]
  by_cases hpre : (q ++ [i]) <+: p
  · rw [entryAt_below_absent p hold (by simp) hpre]
    obtain ⟨r, rfl⟩ := hpre
    -- the first index after the new word is read in an empty table
    cases r with
    | nil => exact absurd (List.append_nil _) heq
    | cons j r =>
        have hokj : Ok (q ++ [i] ++ [j]) := by
          have hall : ∀ l : List Nat, Ok (q ++ [i] ++ (j :: l)) → Ok (q ++ [i] ++ [j]) := by
            intro l
            induction l using List.reverseRecOn with
            | nil => exact id
            | append_singleton l k ih =>
                intro h
                apply ih
                apply hOk _ k
                simpa using h
          exact hall r hp
        have hgone : entryAt present child mem' a (q ++ [i] ++ [j]) = none := by
          rw [entryAt_snoc, tableAt_snoc, hnew, Option.map_some, Option.bind_some, slot,
            hfresh j hokj j]
          rfl
        refine entryAt_below_absent _ hgone (by simp) ?_
        exact ⟨r, by simp⟩
  · exact entryAt_of_not_prefix Ok hOk hmem huniq p hp hpre

/-- Clearing the word at a position with no admissible successor removes exactly
that position. -/
theorem entryAt_remove {a t : A} {q : List Nat} {i : Nat}
    (hmem : ∀ u j, u ≠ t ∨ j ≠ i → mem' u j = mem u j)
    (hgone : present (mem' t i) = false)
    (htable : tableAt present child mem a q = some t)
    (huniq : ∀ p, Ok (p ++ [i]) → tableAt present child mem a p = some t → p = q)
    (hok : Ok (q ++ [i]))
    (hlast : ∀ p, Ok p → (q ++ [i]) <+: p → p = q ++ [i]) :
    ∀ p, Ok p → entryAt present child mem' a p =
      if p = q ++ [i] then none else entryAt present child mem a p := by
  intro p hp
  by_cases heq : p = q ++ [i]
  · subst heq
    have htable' : tableAt present child mem' a q = some t := by
      rw [tableAt_keep Ok hOk hmem huniq hok]
      exact htable
    rw [if_pos rfl, entryAt_snoc, htable', Option.bind_some, slot, hgone]
    rfl
  · rw [if_neg heq]
    exact entryAt_of_not_prefix Ok hOk hmem huniq p hp (fun h => heq (hlast p hp h))

end Update

end TableTree
end Nyxis
