import Mathlib.Data.List.Nodup
import Mathlib.Logic.Function.Basic
import Mathlib.Tactic.Common

/-!
# Singly linked lists through a link function

Slots of a table are chained by a field that names the next slot or none.  The
predicate {lit}`Linked` says which list the chain spells out from a head; the
lemmas say what changing one link does to it.

Main results:

- Theorem {lit}`Linked.nodup`: a chain that ends visits no slot twice.
- Theorem {lit}`Linked.unlink`: redirecting a link skips one slot.
- Theorem {lit}`Linked.push` and {lit}`Linked.snoc`: adding a slot at either end.
-/

namespace Nyxis

variable {A : Type}

/-- Following the links from a head visits exactly the given slots and ends. -/
def Linked (next : A → Option A) : Option A → List A → Prop
  | head, [] => head = none
  | head, x :: l => head = some x ∧ Linked next (next x) l

namespace Linked

variable {next next' : A → Option A} {head : Option A} {l : List A}

@[simp]
theorem nil_iff : Linked next head [] ↔ head = none :=
  Iff.rfl

@[simp]
theorem cons_iff {x : A} :
    Linked next head (x :: l) ↔ head = some x ∧ Linked next (next x) l :=
  Iff.rfl

/-- The head is the first slot. -/
theorem head_eq (h : Linked next head l) : head = l.head? := by
  cases l with
  | nil => exact h
  | cons x l => exact h.1

/-- The chain depends only on the links of its own slots. -/
theorem congr (h : Linked next head l) (hnext : ∀ x ∈ l, next' x = next x) :
    Linked next' head l := by
  induction l generalizing head with
  | nil => exact h
  | cons x l ih =>
      refine ⟨h.1, ?_⟩
      rw [hnext x (List.mem_cons_self ..)]
      exact ih h.2 (fun y hy => hnext y (List.mem_cons_of_mem x hy))

/-- A head spells out one list only. -/
theorem unique {l' : List A} (h : Linked next head l) (h' : Linked next head l') :
    l = l' := by
  induction l generalizing head l' with
  | nil =>
      cases l' with
      | nil => rfl
      | cons y l' =>
          have := h.symm.trans h'.1
          cases this
  | cons x l ih =>
      cases l' with
      | nil =>
          have := h.1.symm.trans h'
          cases this
      | cons y l' =>
          obtain rfl : x = y := Option.some.inj (h.1.symm.trans h'.1)
          rw [ih h.2 h'.2]

/-- The chain continues behind each of its slots. -/
theorem tail_of_append {l₁ l₂ : List A} {x : A} (h : Linked next head (l₁ ++ x :: l₂)) :
    Linked next (next x) l₂ := by
  induction l₁ generalizing head with
  | nil => exact h.2
  | cons y l₁ ih => exact ih h.2

/-- A chain that ends visits no slot twice. -/
theorem nodup (h : Linked next head l) : l.Nodup := by
  induction l generalizing head with
  | nil => exact List.nodup_nil
  | cons x l ih =>
      refine List.nodup_cons.mpr ⟨fun hx => ?_, ih h.2⟩
      obtain ⟨l₁, l₂, rfl⟩ := List.append_of_mem hx
      -- behind both occurrences the same chain would follow
      have hlong := h.2
      have hshort : Linked next (next x) l₂ := tail_of_append h.2
      have hlen := congrArg List.length (hlong.unique hshort)
      simp only [List.length_append, List.length_cons] at hlen
      omega

/-- Replace the chain behind a slot by redirecting its link. -/
theorem redirect [DecidableEq A] {l₁ l₂ l₂' : List A} {q : A} {n : Option A}
    (h : Linked next head (l₁ ++ q :: l₂))
    (htail : Linked (Function.update next q n) n l₂') :
    Linked (Function.update next q n) head (l₁ ++ q :: l₂') := by
  have hnodup := h.nodup
  induction l₁ generalizing head with
  | nil =>
      refine ⟨h.1, ?_⟩
      rw [Function.update_self]
      exact htail
  | cons y l₁ ih =>
      refine ⟨h.1, ?_⟩
      rw [List.cons_append, List.nodup_cons] at hnodup
      have hy : y ≠ q := by
        rintro rfl
        exact hnodup.1 (by simp)
      rw [Function.update_of_ne hy]
      exact ih h.2 hnodup.2

/-- Redirecting a link past its successor removes the successor. -/
theorem unlink [DecidableEq A] {l₁ l₂ : List A} {q x : A}
    (h : Linked next head (l₁ ++ q :: x :: l₂)) :
    Linked (Function.update next q (next x)) head (l₁ ++ q :: l₂) := by
  refine h.redirect ?_
  have htail : Linked next (next x) l₂ := by
    have := h.tail_of_append
    exact this.2
  refine htail.congr (fun y hy => Function.update_of_ne ?_ _ _)
  rintro rfl
  have hnodup := h.nodup
  rw [List.nodup_append] at hnodup
  exact (List.nodup_cons.mp hnodup.2.1).1 (List.mem_cons_of_mem x hy)

/-- A new slot in front. -/
theorem push [DecidableEq A] {x : A} (h : Linked next head l) (hx : x ∉ l) :
    Linked (Function.update next x head) (some x) (x :: l) := by
  refine ⟨rfl, ?_⟩
  rw [Function.update_self]
  refine h.congr (fun y hy => Function.update_of_ne ?_ _ _)
  rintro rfl
  exact hx hy

/-- A new slot at the end. -/
theorem snoc [DecidableEq A] {q x : A} (h : Linked next head (l ++ [q]))
    (hend : next x = none) (hx : x ≠ q) :
    Linked (Function.update next q (some x)) head (l ++ [q, x]) := by
  refine h.redirect ⟨rfl, ?_⟩
  rw [Function.update_of_ne hx]
  exact hend

/-- The last slot of a chain has no successor. -/
theorem next_last {q : A} (h : Linked next head (l ++ [q])) : next q = none :=
  h.tail_of_append

end Linked
end Nyxis
